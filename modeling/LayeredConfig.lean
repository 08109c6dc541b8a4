import LayeredConfig.Layer.Load
import LayeredConfig.Main
import LayeredConfig.Proofs.Dict.History
import LayeredConfig.Proofs.Format.Registrations
import LayeredConfig.Proofs.Ini.Annotations
import LayeredConfig.Proofs.Ini.Conflicts
import LayeredConfig.Proofs.Ini.Inheritance
import LayeredConfig.Proofs.Ini.Layout
import LayeredConfig.Proofs.Ini.RoundTrip
import LayeredConfig.Proofs.Interpolation.Bindings
import LayeredConfig.Proofs.Interpolation.Dedent
import LayeredConfig.Proofs.Interpolation.Parts
import LayeredConfig.Proofs.Interpolation.SingleEntry
import LayeredConfig.Proofs.Interpolation.SinglePass
import LayeredConfig.Proofs.Json.Layouts
import LayeredConfig.Proofs.Layer.Precedence
import LayeredConfig.Proofs.Layer.Updating
import LayeredConfig.Proofs.Layer.VariableNames
import LayeredConfig.Proofs.Layer.Variables
import LayeredConfig.Proofs.Toml.Conversion
import LayeredConfig.Proofs.Tree.Addressing
import LayeredConfig.Proofs.Tree.Attempts
import LayeredConfig.Proofs.Tree.Copying
import LayeredConfig.Proofs.Tree.DeepMerge
import LayeredConfig.Proofs.Tree.Detaching
import LayeredConfig.Proofs.Tree.LeafPaths
import LayeredConfig.Proofs.Tree.ListAddressing
import LayeredConfig.Proofs.Tree.ListEdits
import LayeredConfig.Proofs.Tree.MergeLaws
import LayeredConfig.Proofs.Tree.Navigation
import LayeredConfig.Proofs.Tree.Overwriting
import LayeredConfig.Proofs.Tree.PathText
import LayeredConfig.Proofs.Tree.Run
import LayeredConfig.Proofs.Value.Equality
import LayeredConfig.View.Record
import LayeredConfig.View.Shape
import LayeredConfig.View.Typed
