import LayeredConfig.Ini.Writer
import LayeredConfig.Proofs.Text.Lines
import Mathlib.Data.List.Basic

/-!
What the written lines of an INI document are taken for. `Says` tells for a piece of text made of
whole lines what each line is taken for and how far the document is read after it; a header opens a
block, and an entry adds itself to the current one (`says_entry`), so the text of blocks is read
block by block (`readBlocks_writeBlocks`). The line of an entry without a key starts with a blank:
behind another entry it goes on with the text of that (`Block.asRead`).
-/

namespace LayeredConfig.Ini

/-- An entry that keeps its form as a line: its key shows where the line starts and ends before the
equals sign, and its text fits the line. -/
structure Legible (entry : String × String) : Prop where
  nonempty : entry.1 ≠ ""
  trimmed : Text.trim entry.1.toList = entry.1.toList
  within : ∀ c ∈ entry.1.toList, c ≠ '=' ∧ c ≠ '\n' ∧ c ≠ '\r'
  start : ∀ c ∈ entry.1.toList.head?, c ≠ '#' ∧ c ≠ ';' ∧ c ≠ '['
  plain : isPlain entry.2.toList = true

theorem isPlain_iff {s : List Char} : isPlain s = true ↔ Text.OneLine s ∧ Text.trim s = s := by
  simp [isPlain, Text.OneLine]

/-! ## What a line says -/

/-- A line that does not go on with a text is a header or an entry, unless it is a comment. -/
theorem Line.of_content {continuing : Bool} {line content : List Char} {c : Char}
    (hline : (continuing && line.head?.any Text.isBlank) = false)
    (htrim : Text.trim line = c :: content) (hhash : c ≠ '#') (hsemicolon : c ≠ ';') :
    Line.of continuing line =
      match bracketed? (c :: content) with
      | some name => .header (Text.trim name)
      | none =>
        match Text.splitOnce '=' (c :: content) with
        | some (key, text) => .entry (Text.trim key) (Text.trim text)
        | none => .unknown (c :: content) := by
  unfold Line.of
  rw [htrim, hline]
  dsimp only
  split
  · next heq => cases heq
  · next heq =>
    cases heq
    exact absurd rfl hhash
  · next heq =>
    cases heq
    exact absurd rfl hsemicolon
  · rfl

/-- No line goes on with a text that does not start with a blank. -/
theorem not_continued {line : List Char} (h : ∀ c ∈ line.head?, Text.isBlank c = false)
    (continuing : Bool) : (continuing && line.head?.any Text.isBlank) = false := by
  have hstart : line.head?.any Text.isBlank = false := by
    cases hhead : line.head? with
    | none => rfl
    | some c => exact h c hhead
  rw [hstart, Bool.and_false]

theorem bracketed?_of_ne {c : Char} (h : c ≠ '[') (content : List Char) :
    bracketed? (c :: content) = none := by
  unfold bracketed?
  split
  · next heq =>
    cases heq
    exact absurd rfl h
  · rfl

theorem bracketed?_brackets (name : List Char) :
    bracketed? ('[' :: (name ++ [']'])) = some name := by
  simp [bracketed?]

theorem Line.of_header {name : List Char} (h : isPlain name = true) (continuing : Bool) :
    Line.of continuing ('[' :: (name ++ [']'])) = .header name := by
  have hends : Text.trim ('[' :: (name ++ [']'])) = '[' :: (name ++ [']']) :=
    Text.trim_enclosed rfl rfl name
  have hhead : ∀ d ∈ ('[' :: (name ++ [']'])).head?, Text.isBlank d = false := by
    rintro d ⟨⟩
    rfl
  rw [Line.of_content (not_continued hhead continuing) hends (by decide) (by decide),
    bracketed?_brackets]
  exact congrArg Line.header (isPlain_iff.mp h).2

/-- The text of an entry with the blank before it, which is cut off when the text is empty. -/
def spaced (text : List Char) : List Char := if text = [] then [] else ' ' :: text

theorem trim_spaced {text : List Char} (h : Text.trim text = text) :
    Text.trim (spaced text) = text := by
  rw [spaced]
  split
  · next hempty =>
    rw [hempty]
    rfl
  · exact (Text.trim_blanks_append (List.forall_mem_singleton.mpr rfl) text).trans h

/-- The line of an entry without the white space at its ends. -/
theorem trim_entry {key text : List Char} (hkey : Text.trim key = key) (hne : key ≠ [])
    (htext : Text.trim text = text) :
    Text.trim (key ++ [' ', '=', ' '] ++ text) = key ++ ' ' :: '=' :: spaced text := by
  obtain ⟨c, rest, rfl⟩ := List.exists_cons_of_ne_nil hne
  have hhead : Text.isBlank c = false := (Text.ends_of_trim hkey).1 c rfl
  rw [spaced]
  split
  · next hempty =>
    have htrimmed : Text.trim (c :: rest ++ [' ', '=']) = c :: rest ++ [' ', '='] := by
      apply Text.trim_of_ends
      · rintro d ⟨⟩
        exact hhead
      · have hlast : (c :: rest ++ [' ', '=']).getLast? = some '=' := by
          rw [List.getLast?_append]; rfl
        rw [hlast]
        rintro d ⟨⟩
        rfl
    have hblank : ∀ d ∈ [' '], Text.isBlank d = true := List.forall_mem_singleton.mpr rfl
    have hline : c :: rest ++ [' ', '=', ' '] ++ text = (c :: rest ++ [' ', '=']) ++ [' '] := by
      simp [hempty]
    rw [hline, Text.trim_append_blanks htrimmed hblank]
  · next hfull =>
    have hlast : (c :: rest ++ [' ', '=', ' '] ++ text).getLast? = text.getLast? := by
      rw [List.getLast?_append]
      cases hl : text.getLast? with
      | none => exact absurd (List.getLast?_eq_none_iff.mp hl) hfull
      | some d => rfl
    have hline : Text.trim (c :: rest ++ [' ', '=', ' '] ++ text) =
        c :: rest ++ [' ', '=', ' '] ++ text := by
      apply Text.trim_of_ends
      · rintro d ⟨⟩
        exact hhead
      · rw [hlast]
        exact (Text.ends_of_trim htext).2
    rw [hline]
    simp

theorem Line.of_entry {entry : String × String} (h : Legible entry) (continuing : Bool) :
    Line.of continuing (entry.1.toList ++ [' ', '=', ' '] ++ entry.2.toList) =
      .entry entry.1.toList entry.2.toList := by
  obtain ⟨key, text⟩ := entry
  obtain ⟨hnonempty, htrimmed, hwithin, hstart, hplain⟩ := h
  dsimp only at *
  have hne : key.toList ≠ [] := by rwa [ne_eq, String.toList_eq_nil_iff]
  have htext := (isPlain_iff.mp hplain).2
  have hequals : '=' ∉ key.toList ++ [' '] := by
    rw [List.mem_append, not_or]
    exact ⟨fun hmem => (hwithin '=' hmem).1 rfl, by decide⟩
  have hbefore : Text.trim (key.toList ++ [' ']) = key.toList :=
    Text.trim_append_blanks htrimmed (List.forall_mem_singleton.mpr rfl)
  obtain ⟨c, rest, hc⟩ := List.exists_cons_of_ne_nil hne
  have hchar := hstart c (by rw [hc]; rfl)
  have hblank : ∀ d ∈ (key.toList ++ [' ', '=', ' '] ++ text.toList).head?,
      Text.isBlank d = false := by
    rw [hc] at htrimmed ⊢
    rintro d ⟨⟩
    exact (Text.ends_of_trim htrimmed).1 c rfl
  have hcontent : Text.trim (key.toList ++ [' ', '=', ' '] ++ text.toList) =
      c :: (rest ++ ' ' :: '=' :: spaced text.toList) := by
    rw [trim_entry htrimmed hne htext, hc]
    rfl
  have hsplit : Text.splitOnce '=' (c :: (rest ++ ' ' :: '=' :: spaced text.toList)) =
      some (key.toList ++ [' '], spaced text.toList) := by
    rw [← Text.splitOnce_append hequals, hc]
    simp
  rw [Line.of_content (not_continued hblank continuing) hcontent hchar.1 hchar.2.1,
    bracketed?_of_ne hchar.2.2, hsplit]
  dsimp only
  rw [hbefore, trim_spaced htext]

/-- Without a key the line of an entry starts with a blank, so after another entry it goes on with
the text of that. -/
theorem Line.of_keyless {text : List Char} (h : isPlain text = true) (continuing : Bool) :
    Line.of continuing ([' ', '=', ' '] ++ text) =
      if continuing then .continuation ('=' :: spaced text) else .entry [] text := by
  have htext := (isPlain_iff.mp h).2
  have hcontent : Text.trim ([' ', '=', ' '] ++ text) = '=' :: spaced text := by
    have hstart : [' ', '=', ' '] ++ text = [' '] ++ ('=' :: ' ' :: text) := rfl
    rw [hstart, Text.trim_blanks_append (List.forall_mem_singleton.mpr rfl), spaced]
    split
    · next hempty =>
      rw [hempty]
      rfl
    · next hfull =>
      have hlast : ('=' :: ' ' :: text).getLast? = text.getLast? := by
        rw [List.getLast?_cons_of_ne_nil (List.cons_ne_nil _ _), List.getLast?_cons_of_ne_nil hfull]
      apply Text.trim_of_ends
      · rintro d ⟨⟩
        rfl
      · rw [hlast]
        exact (Text.ends_of_trim htext).2
  cases continuing with
  | true =>
    unfold Line.of
    rw [hcontent]
    rfl
  | false =>
    have hsplit : Text.splitOnce '=' ('=' :: spaced text) = some ([], spaced text) := by
      rw [Text.splitOnce, if_pos rfl]
    rw [Line.of_content rfl hcontent (by decide) (by decide), bracketed?_of_ne (by decide), hsplit]
    dsimp only
    rw [trim_spaced htext]
    rfl

/-- An entry whose line says what it holds as long as no text stands before it. -/
structure Fits (entry : String × String) : Prop where
  plain : isPlain entry.2.toList = true
  legible : entry.1 ≠ "" → Legible entry

theorem Legible.fits {entry : String × String} (h : Legible entry) : Fits entry :=
  ⟨h.plain, fun _ => h⟩

/-- What the line of an entry is taken for, after an entry (`continuing`) or elsewhere. -/
def taken (continuing : Bool) (entry : String × String) : Line :=
  if entry.1 = "" ∧ continuing = true then .continuation ('=' :: spaced entry.2.toList)
  else .entry entry.1.toList entry.2.toList

theorem Line.of_fits {entry : String × String} (h : Fits entry) (continuing : Bool) :
    Line.of continuing (entry.1.toList ++ [' ', '=', ' '] ++ entry.2.toList) =
      taken continuing entry := by
  rw [taken]
  by_cases hkey : entry.1 = ""
  · have hline := Line.of_keyless h.plain continuing
    rw [hkey, String.toList_empty, List.nil_append, hline]
    cases continuing <;> rfl
  · rw [if_neg (fun hboth => hkey hboth.1)]
    exact Line.of_entry (h.legible hkey) continuing

/-! ## What the lines of a text are taken for -/

/-- What lines are taken for, one after the other. -/
def said (r : Reading) : List (List Char) → List Line
  | [] => []
  | line :: rest =>
    Line.of r.continuing line ::
      match r.step (Line.of r.continuing line) with
      | some r => said r rest
      | none => []

theorem readLines_of_said {r r' : Reading} {lines : List (List Char)}
    (h : (said r lines).foldlM Reading.step r = some r') (number : Nat) :
    readLines r number lines = .ok (r'.finished ++ [r'.current]) := by
  induction lines generalizing r number with
  | nil =>
    cases h
    rfl
  | cons line rest ih =>
    rw [said, List.foldlM_cons] at h
    obtain ⟨next, hnext, hrest⟩ := Option.bind_eq_some_iff.mp h
    rw [hnext] at hrest
    rw [readLines, hnext]
    exact ih hrest (number + 1)

/-- A text of whole lines is taken for given lines, and leads from one reading of a document to
another, whatever follows it. -/
structure Says (s : List Char) (r : Reading) (out : List Line) (r' : Reading) : Prop where
  run : out.foldlM Reading.step r = some r'
  lines : ∀ rest, said r (Text.lines (s ++ rest)) = out ++ said r' (Text.lines rest)

section Says

variable {s t line : List Char} {r r' r'' : Reading} {out more : List Line} {l : Line}

theorem Says.nil (r : Reading) : Says [] r [] r := ⟨rfl, fun _ => rfl⟩

theorem Says.append (hs : Says s r out r') (ht : Says t r' more r'') :
    Says (s ++ t) r (out ++ more) r'' := by
  constructor
  · rw [List.foldlM_append, hs.run, Option.bind_eq_bind, Option.bind_some, ht.run]
  · intro rest
    rw [List.append_assoc, hs.lines, ht.lines, List.append_assoc]

theorem Says.ofLine (hline : Text.OneLine line) (hsaid : Line.of r.continuing line = l)
    (hstep : r.step l = some r') : Says (line ++ ['\n']) r [l] r' := by
  constructor
  · rw [List.foldlM_cons, hstep]
    rfl
  · intro rest
    rw [List.append_assoc, List.singleton_append, Text.lines_cons hline, said, hsaid, hstep]
    rfl

theorem Says.said_eq (h : Says s .start out r) : said .start (Text.lines s) = out := by
  have hlines := h.lines []
  rw [List.append_nil] at hlines
  rw [hlines]
  exact List.append_nil out

theorem Says.readBlocks (h : Says s .start out r) :
    readBlocks s = .ok (r.finished ++ [r.current]) :=
  readLines_of_said (h.said_eq.symm ▸ h.run) 1

/-! ## Entries -/

/-- The entries of a block after one more line. An entry without a key goes on with the text of the
one before it. -/
def readEntry (entries : List (String × String)) (entry : String × String) :
    List (String × String) :=
  if entry.1 = "" ∧ entries ≠ [] then continueLast ('=' :: spaced entry.2.toList) entries
    else entries ++ [entry]

/-- What the lines of entries are taken for. -/
def takenAll (continuing : Bool) : List (String × String) → List Line
  | [] => []
  | entry :: rest => taken continuing entry :: takenAll true rest

theorem length_continueLast (text : List Char) (entries : List (String × String)) :
    (continueLast text entries).length = entries.length := by
  induction entries with
  | nil => rfl
  | cons entry rest ih =>
    cases rest with
    | nil => rfl
    | cons next later => exact congrArg Nat.succ ih

theorem readEntry_ne_nil (entries : List (String × String)) (entry : String × String) :
    readEntry entries entry ≠ [] := by
  rw [readEntry]
  split
  · next h =>
    intro hnil
    have hlength := length_continueLast ('=' :: spaced entry.2.toList) entries
    rw [hnil] at hlength
    exact h.2 (List.length_eq_zero_iff.mp hlength.symm)
  · simp

/-- An entry is added to the current block, or to the text of its last entry. -/
theorem says_entry {entry : String × String} (h : Fits entry)
    (hr : r.continuing = true ↔ r.current.entries ≠ []) :
    Says (entryLine entry) r [taken r.continuing entry]
      ⟨r.finished, ⟨r.current.name, readEntry r.current.entries entry⟩, true⟩ := by
  have hkey : Text.OneLine entry.1.toList := by
    by_cases hne : entry.1 = ""
    · rw [hne]
      exact List.forall_mem_nil _
    · exact fun c hc => ((h.legible hne).within c hc).2
  apply Says.ofLine _ (Line.of_fits h r.continuing)
  · rw [taken, readEntry]
    by_cases hglued : entry.1 = "" ∧ r.current.entries ≠ []
    · rw [if_pos hglued, if_pos ⟨hglued.1, hr.mpr hglued.2⟩, Reading.step, hr.mpr hglued.2]
    · rw [if_neg hglued, if_neg (fun h => hglued ⟨h.1, hr.mp h.2⟩), Reading.step,
        String.ofList_toList, String.ofList_toList]
  · rw [Text.oneLine_append, Text.oneLine_append]
    exact ⟨⟨hkey, by decide⟩, (isPlain_iff.mp h.plain).1⟩

theorem says_entries {entries : List (String × String)} (h : ∀ entry ∈ entries, Fits entry)
    (hr : r.continuing = true ↔ r.current.entries ≠ []) :
    ∃ continuing, Says (entries.flatMap entryLine) r (takenAll r.continuing entries)
      ⟨r.finished, ⟨r.current.name, entries.foldl readEntry r.current.entries⟩, continuing⟩ := by
  induction entries generalizing r with
  | nil => exact ⟨r.continuing, Says.nil r⟩
  | cons entry rest ih =>
    rw [List.forall_mem_cons] at h
    have hfirst := says_entry h.1 hr
    obtain ⟨continuing, hrest⟩ := ih h.2
      (r := ⟨r.finished, ⟨r.current.name, readEntry r.current.entries entry⟩, true⟩)
      ⟨fun _ => readEntry_ne_nil _ _, fun _ => rfl⟩
    exact ⟨continuing, hfirst.append hrest⟩

/-! ## Blocks -/

/-- A header closes the current block and opens one with its name. -/
theorem says_header {name : String} (h : isPlain name.toList = true) (r : Reading) :
    Says ('[' :: name.toList ++ [']', '\n']) r [.header name.toList]
      ⟨r.finished ++ [r.current], ⟨some name, []⟩, false⟩ := by
  have hsplit : '[' :: name.toList ++ [']', '\n'] = '[' :: (name.toList ++ [']']) ++ ['\n'] := by
    simp
  rw [hsplit]
  apply Says.ofLine _ (Line.of_header h r.continuing)
  · rw [Reading.step, String.ofList_toList]
  · rw [Text.oneLine_cons, Text.oneLine_append, Text.oneLine_cons]
    exact ⟨by decide, (isPlain_iff.mp h).1, by decide, by decide⟩

theorem says_blank (r : Reading) : Says ['\n'] r [.blank] ⟨r.finished, r.current, false⟩ :=
  Says.ofLine (List.forall_mem_nil _) rfl rfl

/-- What a block is read as: entries without a key are lost in the texts before them. -/
def Block.asRead (block : Block) : Block := ⟨block.name, block.entries.foldl readEntry []⟩

/-- What the lines of a block are taken for. -/
def Block.lines (first : Bool) (block : Block) : List Line :=
  match block.name with
  | none => takenAll false block.entries
  | some name =>
      (if first then [] else [.blank]) ++ .header name.toList :: takenAll false block.entries

/-- What the lines of blocks that follow given lines are taken for. -/
def linesAfter (before : List Line) (blocks : List Block) : List Line :=
  blocks.foldl (fun out block => out ++ block.lines out.isEmpty) before

/-- A block whose header and entries fit their lines. -/
structure FittingBlock (block : Block) : Prop where
  name : ∃ name, block.name = some name ∧ isPlain name.toList = true
  entries : ∀ entry ∈ block.entries, Fits entry

theorem says_block {block : Block} (h : FittingBlock block) (first : Bool) (r : Reading) :
    ∃ continuing, Says (blockText first block) r (block.lines first)
      ⟨r.finished ++ [r.current], block.asRead, continuing⟩ := by
  obtain ⟨name, entries⟩ := block
  obtain ⟨⟨name, rfl, hname⟩, hentries⟩ := h
  obtain ⟨continuing, hbody⟩ :=
    says_entries hentries (r := ⟨r.finished ++ [r.current], ⟨some name, []⟩, false⟩)
    (by simp)
  refine ⟨continuing, ?_⟩
  rw [blockText, Block.lines]
  cases first with
  | true => exact (says_header hname r).append hbody
  | false =>
      exact ((says_blank r).append (says_header hname ⟨r.finished, r.current, false⟩)).append hbody

/-- A text ends up empty exactly when there are no lines, whatever block is added. -/
theorem isEmpty_append_block {block : Block} (h : FittingBlock block) (first : Bool) (s : List Char)
    (out : List Line) : (s ++ blockText first block).isEmpty =
      (out ++ block.lines first).isEmpty := by
  obtain ⟨name, hname, _⟩ := h.name
  rw [blockText, Block.lines, hname]
  dsimp only
  rw [List.isEmpty_eq_false_iff.mpr (by simp), List.isEmpty_eq_false_iff.mpr (by simp)]

/-- Blocks that follow a text are read after what the text is read as. -/
theorem says_writeBlocks {blocks : List Block} (h : ∀ block ∈ blocks, FittingBlock block)
    {before : List Char} (hbefore : Says before .start out r)
    (hempty : before.isEmpty = out.isEmpty) :
    ∃ r', Says (writeBlocks before blocks) .start (linesAfter out blocks) r' ∧
      r'.finished ++ [r'.current] = r.finished ++ [r.current] ++ blocks.map Block.asRead := by
  induction blocks generalizing before out r with
  | nil => exact ⟨r, hbefore, (List.append_nil _).symm⟩
  | cons block rest ih =>
    rw [List.forall_mem_cons] at h
    obtain ⟨continuing, hblock⟩ := says_block h.1 before.isEmpty r
    have hnext := isEmpty_append_block h.1 before.isEmpty before out
    obtain ⟨r', hsays, hread⟩ := ih h.2 (hbefore.append hblock) hnext
    refine ⟨r', ?_, ?_⟩
    · rw [writeBlocks, linesAfter, List.foldl_cons, List.foldl_cons, ← hempty]
      exact hsays
    · rw [hread]
      exact (List.append_cons _ block.asRead (rest.map Block.asRead)).symm

end Says

/-! ## Entries without a key -/

/-- Every entry of the block but the first one has a key. -/
def Block.Keyed (block : Block) : Prop := ∀ entry ∈ block.entries.tail, entry.1 ≠ ""

theorem readEntry_of_key {entry : String × String} (h : entry.1 ≠ "")
    (entries : List (String × String)) :
    readEntry entries entry = entries ++ [entry] := if_neg fun hboth => h hboth.1

theorem length_foldl_readEntry_le (entries rest : List (String × String)) :
    (rest.foldl readEntry entries).length ≤ entries.length + rest.length := by
  induction rest generalizing entries with
  | nil => exact Nat.le_refl _
  | cons entry rest ih =>
    have hstep : (readEntry entries entry).length ≤ entries.length + 1 := by
      rw [readEntry]
      split
      · rw [length_continueLast]
        exact Nat.le_succ _
      · exact Nat.le_of_eq List.length_append
    have hrest := ih (readEntry entries entry)
    rw [List.foldl_cons, List.length_cons]
    omega

/-- Entries are read as they are only if each of them has a key: one without a key makes the block
shorter. -/
theorem foldl_readEntry_eq_iff {entries : List (String × String)} (hne : entries ≠ [])
    (rest : List (String × String)) :
    rest.foldl readEntry entries = entries ++ rest ↔ ∀ entry ∈ rest, entry.1 ≠ "" := by
  induction rest generalizing entries with
  | nil => simp
  | cons entry rest ih =>
    rw [List.foldl_cons, List.forall_mem_cons]
    by_cases hkey : entry.1 = ""
    · refine ⟨fun h => ?_, fun h => absurd hkey h.1⟩
      have hglued : (readEntry entries entry).length = entries.length := by
        rw [readEntry, if_pos ⟨hkey, hne⟩, length_continueLast]
      have hlength := length_foldl_readEntry_le (readEntry entries entry) rest
      rw [h, hglued, List.length_append, List.length_cons] at hlength
      omega
    · have hrest := ih (List.append_ne_nil_of_right_ne_nil entries (List.cons_ne_nil entry []))
      rw [List.append_assoc, List.singleton_append] at hrest
      rw [readEntry_of_key hkey, hrest, and_iff_right hkey]

theorem asRead_eq_iff {block : Block} : block.asRead = block ↔ block.Keyed := by
  obtain ⟨name, entries⟩ := block
  rw [Block.asRead, Block.Keyed, Block.mk.injEq, and_iff_right rfl]
  cases entries with
  | nil => simp
  | cons first rest =>
    have hfirst : readEntry [] first = [first] := if_neg fun hboth => hboth.2 rfl
    rw [List.foldl_cons, hfirst, List.tail_cons]
    exact foldl_readEntry_eq_iff (List.cons_ne_nil first []) rest

theorem map_asRead_eq_iff {blocks : List Block} :
    blocks.map Block.asRead = blocks ↔ ∀ block ∈ blocks, block.Keyed := by
  induction blocks with
  | nil => simp
  | cons block rest ih =>
      rw [List.map_cons, List.cons.injEq, asRead_eq_iff, ih, List.forall_mem_cons]

theorem takenAll_true (entries : List (String × String)) :
    takenAll true entries = entries.map (taken true) := by
  induction entries with
  | nil => rfl
  | cons entry rest ih => rw [takenAll, List.map_cons, ih]

theorem taken_true_eq_continuation_iff {entry : String × String} {text : List Char} :
    taken true entry = .continuation text ↔ entry.1 = "" ∧ '=' :: spaced entry.2.toList = text := by
  rw [taken]
  split
  · next h => rw [Line.continuation.injEq, and_iff_right h.1]
  · next h => exact ⟨(nomatch ·), fun heq => absurd ⟨heq.1, rfl⟩ h⟩

/-- Some line of a block goes on with the text before it unless all its entries but the first have
keys. -/
theorem continuation_mem_lines_iff {block : Block} (first : Bool) :
    (∃ text, .continuation text ∈ block.lines first) ↔ ¬ block.Keyed := by
  have hentries : (∃ text, .continuation text ∈ block.lines first) ↔
      ∃ text, .continuation text ∈ takenAll false block.entries := by
    rw [Block.lines]
    cases block.name with
    | none => rfl
    | some name => cases first <;> simp
  rw [hentries, Block.Keyed]
  simp only [not_forall, ne_eq, not_not, exists_prop]
  cases block.entries with
  | nil => simp [takenAll]
  | cons entry rest =>
    have hentry : taken false entry = .entry entry.1.toList entry.2.toList :=
      if_neg fun hboth => by cases hboth.2
    simp only [takenAll, takenAll_true, hentry, List.tail_cons, List.mem_cons, List.mem_map,
      reduceCtorEq, false_or, taken_true_eq_continuation_iff]
    constructor
    · rintro ⟨text, entry, hmem, hkey, _⟩
      exact ⟨entry, hmem, hkey⟩
    · rintro ⟨entry, hmem, hkey⟩
      exact ⟨_, entry, hmem, hkey, rfl⟩

theorem continuation_mem_linesAfter_iff {blocks : List Block} {before : List Line} :
    (∃ text, .continuation text ∈ linesAfter before blocks) ↔
      (∃ text, .continuation text ∈ before) ∨ ∃ block ∈ blocks, ¬ block.Keyed := by
  induction blocks generalizing before with
  | nil => simp [linesAfter]
  | cons block rest ih =>
    have hnext : linesAfter before (block :: rest) =
        linesAfter (before ++ block.lines before.isEmpty) rest := rfl
    rw [hnext, ih, List.exists_mem_cons_iff, ← or_assoc,
      ← continuation_mem_lines_iff before.isEmpty, ← exists_or]
    simp only [List.mem_append]

theorem continuation_not_mem_linesAfter_iff {blocks : List Block} :
    (∀ text, .continuation text ∉ linesAfter [] blocks) ↔ ∀ block ∈ blocks, block.Keyed := by
  rw [← not_exists, continuation_mem_linesAfter_iff]
  simp

/-- What the text of blocks is read as, and what its lines are taken for. -/
theorem readBlocks_writeBlocks {own : List (String × String)} {blocks : List Block}
    (hown : ∀ entry ∈ own, Fits entry) (hblocks : ∀ block ∈ blocks, FittingBlock block) :
    readBlocks (writeBlocks [] (⟨none, own⟩ :: blocks)) =
      .ok ((⟨none, own⟩ :: blocks).map Block.asRead) ∧
    said .start (Text.lines (writeBlocks [] (⟨none, own⟩ :: blocks))) =
      linesAfter [] (⟨none, own⟩ :: blocks) := by
  obtain ⟨continuing, hfirst⟩ := says_entries hown (r := .start) (by simp [Reading.start])
  have hempty : (own.flatMap entryLine).isEmpty = (takenAll false own).isEmpty := by
    cases own with
    | nil => rfl
    | cons entry rest => simp [takenAll, entryLine]
  obtain ⟨r, hsays, hread⟩ := says_writeBlocks hblocks hfirst hempty
  have hstart : writeBlocks [] (⟨none, own⟩ :: blocks) =
      writeBlocks (own.flatMap entryLine) blocks := rfl
  have hlines : linesAfter [] (⟨none, own⟩ :: blocks) = linesAfter (takenAll false own) blocks :=
    rfl
  rw [hstart, hlines, hsays.readBlocks, hread]
  exact ⟨rfl, hsays.said_eq⟩

end LayeredConfig.Ini
