import LayeredConfig.Proofs.Value
import LayeredConfig.Toml.Reader

/-!
TOML documents are well-formed values. While a document is read, the tables that are finished and
the one that is open have no key twice.
-/

namespace LayeredConfig.Toml

namespace Draft

mutual

/-- Finished values are well-formed, and no table has a key twice. -/
def WellFormed : Draft → Prop
  | .item value => value.toValue.WellFormed
  | .table _ _ children => (Dict.keys children).Nodup ∧ wellFormedChildren children
  | .tables items => wellFormedItems items

def wellFormedChildren : List (String × Draft) → Prop
  | [] => True
  | (_, x) :: rest => x.WellFormed ∧ wellFormedChildren rest

def wellFormedItems : List Draft → Prop
  | [] => True
  | x :: xs => x.WellFormed ∧ wellFormedItems xs

end

/-- The table of some children. -/
def Table (d : Dict Draft) : Prop := d.keys.Nodup ∧ ∀ p ∈ d, p.2.WellFormed

theorem wellFormedItems_iff {items : List Draft} :
    wellFormedItems items ↔ ∀ x ∈ items, x.WellFormed := by
  induction items with
  | nil => simp [wellFormedItems]
  | cons x rest ih => simp [wellFormedItems, ih]

theorem wellFormed_table_iff {implicit dotted : Bool} {children : Dict Draft} :
    (table implicit dotted children).WellFormed ↔ Table children := by
  have hchildren : ∀ children : List (String × Draft),
      wellFormedChildren children ↔ ∀ p ∈ children, p.2.WellFormed := by
    intro children
    induction children with
    | nil => simp [wellFormedChildren]
    | cons p rest ih => simp [wellFormedChildren, ih]
  rw [WellFormed, hchildren, Table]

theorem Table.nil : Table [] := ⟨List.nodup_nil, List.forall_mem_nil _⟩

theorem Table.insert {d : Dict Draft} (hd : Table d) {key : String} {x : Draft}
    (hx : x.WellFormed) : Table (Dict.insert d key x) := by
  refine ⟨Dict.nodup_insert hd.1 key x, fun p hp => ?_⟩
  rcases Dict.mem_of_mem_insert hp with rfl | hp
  · exact hx
  · exact hd.2 p hp

theorem Table.remove {d : Dict Draft} (hd : Table d) (key : String) : Table (Dict.remove d key) :=
  ⟨Dict.nodup_remove hd.1 key, fun p hp => hd.2 p (Dict.mem_of_mem_remove hp)⟩

theorem Table.of_get? {d : Dict Draft} (hd : Table d) {key : String} {x : Draft}
    (h : d.get? key = some x) : x.WellFormed :=
  hd.2 _ (Dict.mem_of_get?_eq_some h)

theorem keys_entryValues (d : Dict Draft) :
    Dict.keys (Item.entryValues (entries d)) = Dict.keys d := by
  induction d with
  | nil => rfl
  | cons p rest ih => simp [entries, Item.entryValues, ih]

mutual

theorem toItem_wellFormed : ∀ {x : Draft}, x.WellFormed → x.toItem.toValue.WellFormed
  | .item _, h => h
  | .table _ _ children, h => ⟨keys_entryValues children ▸ h.1, entries_wellFormed h.2⟩
  | .tables _, h => toItems_wellFormed h

theorem toItems_wellFormed : ∀ {items : List Draft}, wellFormedItems items →
    Value.wellFormedItems (Item.valuesOf (toItems items))
  | [], _ => trivial
  | _ :: _, h => ⟨toItem_wellFormed h.1, toItems_wellFormed h.2⟩

theorem entries_wellFormed : ∀ {children : List (String × Draft)}, wellFormedChildren children →
    Value.wellFormedEntries (Item.entryValues (entries children))
  | [], _ => trivial
  | _ :: _, h => ⟨toItem_wellFormed h.1, entries_wellFormed h.2⟩

end

theorem Table.toValue_wellFormed {d : Dict Draft} (hd : Table d) :
    (Item.table (entries d)).toValue.WellFormed :=
  toItem_wellFormed (x := .table false false d) (wellFormed_table_iff.mpr hd)

/-- A change that keeps tables well-formed does so below a path, and what it gives holds after
it. -/
theorem within_table {α : Type} {dotted : Bool}
    {change : Bool → Dict Draft → Option (α × Dict Draft)} {Q : α → Prop}
    (hc : ∀ {isDotted d a d'}, Table d → change isDotted d = some (a, d') → Q a ∧ Table d')
    (path : List String) {isDotted : Bool} {d d' : Dict Draft} {a : α} (hd : Table d)
    (h : within dotted change path isDotted d = some (a, d')) : Q a ∧ Table d' := by
  induction path generalizing isDotted d d' a with
  | nil => exact hc hd h
  | cons key rest ih =>
    simp only [within] at h
    split at h
    · obtain ⟨⟨b, inner⟩, hinner, heq⟩ := Option.map_eq_some_iff.mp h
      cases heq
      obtain ⟨hq, ht⟩ := ih Table.nil hinner
      exact ⟨hq, hd.insert (wellFormed_table_iff.mpr ht)⟩
    · cases h
    · next hold =>
      split at h
      · cases h
      · obtain ⟨⟨b, inner⟩, hinner, heq⟩ := Option.map_eq_some_iff.mp h
        cases heq
        obtain ⟨hq, ht⟩ := ih (wellFormed_table_iff.mp (hd.of_get? hold)) hinner
        exact ⟨hq, hd.insert (wellFormed_table_iff.mpr ht)⟩
    · next items hold =>
      have hitems := wellFormedItems_iff.mp (hd.of_get? hold)
      split at h
      · next hlast =>
        obtain ⟨⟨b, inner⟩, hinner, heq⟩ := Option.map_eq_some_iff.mp h
        cases heq
        obtain ⟨hq, ht⟩ :=
          ih (wellFormed_table_iff.mp (hitems _ (List.mem_of_getLast? hlast))) hinner
        refine ⟨hq, hd.insert (wellFormedItems_iff.mpr fun x hx => ?_)⟩
        rcases List.mem_append.mp hx with hx | hx
        · exact hitems x (List.dropLast_subset _ hx)
        · rw [List.mem_singleton.mp hx]
          exact wellFormed_table_iff.mpr ht
      · cases h

theorem put_table {key : List String} {value : Item} {d d' : Dict Draft}
    (hv : value.toValue.WellFormed) (hd : Table d) (h : put key value d = some d') : Table d' := by
  obtain ⟨last, _, h⟩ := Option.bind_eq_some_iff.mp h
  obtain ⟨⟨u, after⟩, hwithin, heq⟩ := Option.bind_eq_some_iff.mp h
  cases heq
  refine (within_table (Q := fun _ => True) ?_ _ hd hwithin).2
  intro isDotted e a e' he hwrite
  split at hwrite
  · cases hwrite
  · split at hwrite
    · cases hwrite
    · cases hwrite
      exact ⟨trivial, he.insert hv⟩

end Draft

theorem readBased?_wellFormed {base : Nat} {s rest : List Char} {x : Item}
    (h : readBased? base s = some (x, rest)) : x.toValue.WellFormed := by
  obtain ⟨_, _, h⟩ := Option.bind_eq_some_iff.mp h
  obtain ⟨_, _, h⟩ := Option.bind_eq_some_iff.mp h
  split at h
  · cases h
    trivial
  · cases h

theorem decimal?_wellFormed {negative : Bool} {whole fraction : List Char} {exponent : Int}
    {x : Item} (h : decimal? negative whole fraction exponent = some x) : x.toValue.WellFormed := by
  unfold decimal? at h
  split at h
  · cases h
  · cases h
    trivial

theorem readDecimal?_wellFormed {s rest : List Char} {x : Item}
    (h : readDecimal? s = some (x, rest)) : x.toValue.WellFormed := by
  unfold readDecimal? at h
  rcases hsign : takeSign s with ⟨negative, unsigned⟩
  simp only [hsign] at h
  obtain ⟨⟨whole, _⟩, _, h⟩ := Option.bind_eq_some_iff.mp h
  obtain ⟨⟨fraction, _⟩, _, h⟩ := Option.bind_eq_some_iff.mp h
  obtain ⟨⟨exponent, _⟩, _, h⟩ := Option.bind_eq_some_iff.mp h
  dsimp only at h
  split at h
  · split at h <;> split at h <;> cases h <;> trivial
  · obtain ⟨_, hx, heq⟩ := Option.bind_eq_some_iff.mp h
    cases heq
    exact decimal?_wellFormed hx

theorem readNumber?_wellFormed {s rest : List Char} {x : Item}
    (h : readNumber? s = some (x, rest)) : x.toValue.WellFormed := by
  unfold readNumber? at h
  split at h
  · exact readBased?_wellFormed h
  · exact readBased?_wellFormed h
  · exact readBased?_wellFormed h
  · rcases Option.or_eq_some_iff.mp h with h | ⟨_, h⟩
    · unfold readSpecial? at h
      split at h <;> cases h <;> trivial
    · exact readDecimal?_wellFormed h

mutual

theorem readItem?_wellFormed : ∀ {fuel depth : Nat} {s rest : List Char} {x : Item},
    readItem? fuel depth s = some (x, rest) → x.toValue.WellFormed
  | 0, _, _, _, _, h => by cases h
  | fuel + 1, _, [], _, _, h => by cases h
  | fuel + 1, _, c :: _, _, _, h => by
    simp only [readItem?] at h
    split at h
    · obtain ⟨_, _, heq⟩ := Option.map_eq_some_iff.mp h
      cases heq
      trivial
    · split at h
      · split at h
        · cases h
        · split at h
          · cases h
            trivial
          · obtain ⟨_, hitems, heq⟩ := Option.map_eq_some_iff.mp h
            cases heq
            exact readItems?_wellFormed hitems
      · split at h
        · split at h
          · cases h
          · split at h
            · cases h
              exact Value.wellFormed_map_nil
            · obtain ⟨_, hmembers, heq⟩ := Option.map_eq_some_iff.mp h
              cases heq
              exact (readMembers?_table Draft.Table.nil hmembers).toValue_wellFormed
        · split at h
          · split at h
            · cases h
              trivial
            · cases h
          · split at h
            · split at h
              · cases h
                trivial
              · cases h
            · split at h
              · cases h
                trivial
              · cases h
              · exact readNumber?_wellFormed h

theorem readItems?_wellFormed : ∀ {fuel depth : Nat} {s rest : List Char} {items : List Item},
    readItems? fuel depth s = some (items, rest) → Value.wellFormedItems (Item.valuesOf items)
  | 0, _, _, _, _, h => by cases h
  | fuel + 1, _, _, _, _, h => by
    simp only [readItems?] at h
    obtain ⟨⟨item, _⟩, hitem, h⟩ := Option.bind_eq_some_iff.mp h
    dsimp only at h
    split at h
    · split at h
      · cases h
        exact ⟨readItem?_wellFormed hitem, trivial⟩
      · obtain ⟨_, hothers, heq⟩ := Option.bind_eq_some_iff.mp h
        cases heq
        exact ⟨readItem?_wellFormed hitem, readItems?_wellFormed hothers⟩
    · cases h
      exact ⟨readItem?_wellFormed hitem, trivial⟩
    · cases h

theorem readMembers?_table : ∀ {fuel depth : Nat} {s rest : List Char} {d d' : Dict Draft},
    Draft.Table d → readMembers? fuel depth d s = some (d', rest) → Draft.Table d'
  | 0, _, _, _, _, _, _, h => by cases h
  | fuel + 1, _, _, _, _, _, hd, h => by
    simp only [readMembers?] at h
    obtain ⟨⟨key, _⟩, _, h⟩ := Option.bind_eq_some_iff.mp h
    dsimp only at h
    split at h
    · obtain ⟨⟨item, _⟩, hitem, h⟩ := Option.bind_eq_some_iff.mp h
      obtain ⟨next, hput, h⟩ := Option.bind_eq_some_iff.mp h
      have hnext := Draft.put_table (readItem?_wellFormed hitem) hd hput
      split at h
      · exact readMembers?_table hnext h
      · cases h
        exact hnext
      · cases h
    · cases h

end

/-- Both the finished tables and the one being read are well-formed. -/
def Progress.WellFormed (p : Progress) : Prop := Draft.Table p.root ∧ Draft.Table p.current

theorem Progress.close_table {p : Progress} (hp : p.WellFormed) {root : Dict Draft}
    (h : p.close = some root) : Draft.Table root := by
  have hcurrent : (Draft.table false false p.current).WellFormed :=
    Draft.wellFormed_table_iff.mpr hp.2
  unfold close at h
  split at h
  · cases h
    exact hp.2
  · obtain ⟨last, _, h⟩ := Option.bind_eq_some_iff.mp h
    obtain ⟨⟨u, after⟩, hwithin, heq⟩ := Option.bind_eq_some_iff.mp h
    cases heq
    refine (Draft.within_table (Q := fun _ => True) ?_ _ hp.1 hwithin).2
    intro isDotted d a d' hd hplace
    split at hplace
    · cases hplace
      refine ⟨trivial, hd.insert ?_⟩
      split
      · exact ⟨hcurrent, trivial⟩
      · exact hcurrent
    · next items hold =>
      split at hplace
      · cases hplace
        have hitems := Draft.wellFormedItems_iff.mp (hd.of_get? hold)
        refine ⟨trivial, hd.insert (Draft.wellFormedItems_iff.mpr fun x hx => ?_)⟩
        rcases List.mem_append.mp hx with hx | hx
        · exact hitems x hx
        · rw [List.mem_singleton.mp hx]
          exact hcurrent
      · cases hplace
    · cases hplace

theorem Progress.openTable_wellFormed {p q : Progress} (hp : p.WellFormed) {path : List String}
    {isArray : Bool} (h : p.openTable path isArray = some q) : q.WellFormed := by
  obtain ⟨root, hclose, h⟩ := Option.bind_eq_some_iff.mp h
  obtain ⟨last, _, h⟩ := Option.bind_eq_some_iff.mp h
  have hroot := close_table hp hclose
  split at h
  · cases h
    exact ⟨hroot, Draft.Table.nil⟩
  · obtain ⟨⟨current, after⟩, hwithin, heq⟩ := Option.bind_eq_some_iff.mp h
    cases heq
    refine And.symm (Draft.within_table (Q := Draft.Table) ?_ _ hroot hwithin)
    intro isDotted d a d' hd htake
    split at htake
    · cases htake
      exact ⟨Draft.Table.nil, hd⟩
    · next hold =>
      cases htake
      exact ⟨Draft.wellFormed_table_iff.mp (hd.of_get? hold), hd.remove last⟩
    · cases htake

theorem readEntry?_wellFormed {p q : Progress} (hp : p.WellFormed) {s rest : List Char}
    (h : readEntry? p s = some (q, rest)) : q.WellFormed := by
  obtain ⟨_, _, h⟩ := Option.bind_eq_some_iff.mp h
  dsimp only at h
  split at h
  · obtain ⟨⟨item, _⟩, hitem, h⟩ := Option.bind_eq_some_iff.mp h
    obtain ⟨_, _, h⟩ := Option.bind_eq_some_iff.mp h
    obtain ⟨next, hput, heq⟩ := Option.bind_eq_some_iff.mp h
    cases heq
    obtain ⟨current, hcurrent, rfl⟩ := Option.map_eq_some_iff.mp hput
    exact ⟨hp.1, Draft.put_table (readItem?_wellFormed hitem) hp.2 hcurrent⟩
  · cases h

theorem readHeader?_wellFormed {p q : Progress} (hp : p.WellFormed) {s rest : List Char}
    (h : readHeader? p s = some (q, rest)) : q.WellFormed := by
  have opened : ∀ {key : List String} {isArray : Bool} {rest' : Option (List Char)},
      (rest'.bind fun r => (p.openTable key isArray).bind fun q => some (q, r)) = some (q, rest) →
        q.WellFormed := by
    intro key isArray rest' h
    obtain ⟨_, _, h⟩ := Option.bind_eq_some_iff.mp h
    obtain ⟨_, hopen, heq⟩ := Option.bind_eq_some_iff.mp h
    cases heq
    exact Progress.openTable_wellFormed hp hopen
  unfold readHeader? at h
  split at h
  · obtain ⟨_, _, h⟩ := Option.bind_eq_some_iff.mp h
    dsimp only at h
    split at h
    · exact opened h
    · cases h
  · obtain ⟨_, _, h⟩ := Option.bind_eq_some_iff.mp h
    dsimp only at h
    split at h
    · exact opened h
    · cases h
  · cases h

theorem readLines?_wellFormed (fuel : Nat) {p q : Progress} (hp : p.WellFormed) {s : List Char}
    (h : readLines? fuel p s = some q) : q.WellFormed := by
  induction fuel generalizing p s with
  | zero => cases h
  | succ fuel ih =>
    simp only [readLines?] at h
    split at h
    · cases h
      exact hp
    · obtain ⟨_, hheader, h⟩ := Option.bind_eq_some_iff.mp h
      exact ih (readHeader?_wellFormed hp hheader) h
    · obtain ⟨_, _, h⟩ := Option.bind_eq_some_iff.mp h
      exact ih hp h
    · split at h
      · exact ih hp h
      · obtain ⟨_, hentry, h⟩ := Option.bind_eq_some_iff.mp h
        exact ih (readEntry?_wellFormed hp hentry) h

theorem read?_wellFormed {s : List Char} {entries : List (String × Item)}
    (h : read? s = some entries) : (Item.table entries).toValue.WellFormed := by
  obtain ⟨p, hp, h⟩ := Option.bind_eq_some_iff.mp h
  obtain ⟨root, hroot, heq⟩ := Option.bind_eq_some_iff.mp h
  cases heq
  have hlines := readLines?_wellFormed _ ⟨Draft.Table.nil, Draft.Table.nil⟩ hp
  exact (Progress.close_table hlines hroot).toValue_wellFormed

end LayeredConfig.Toml
