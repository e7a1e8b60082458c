import SpinelEbpf.Codegen.Methods

/-!
# Codegen — Calls made as statements

The text of a call makes the call, so a call is made only where its text is put into the code.
`droppedAll` lists the call statements whose text is not: the last statement of a method without
a value or of a block, and a statement before the last whose arguments needed lines.

For a method that passes the check, and a run that C reads as Ruby does, the generated code makes
the calls of the run, in order among the other effects, just if the run reaches none of these
(`effects_preserved_iff`).
-/

namespace SpinelEbpf.Codegen
open Outcome

/-- The call statements of a method that the code generator drops. -/
def Method.dropped (m : Method) : List Nat := droppedAll (!m.void) m.body

/-- The check on the shape of a method with calls and loops. -/
def Method.checked (m : Method) (mapPrefix : String) : Bool :=
  okAll (· ∈ m.dropped) (m.ctx mapPrefix) (m.scope true .hash) (!m.void) (!m.void) m.body

/-- What the generated code runs: without the dropped calls, and with the rounds of `bpf_loop`. -/
def Host.generated (callee : Behaviour) (dropped : List Nat) : Host :=
  ⟨callee, (· ∈ dropped), bpfLoops⟩

/-- What a run of a method asks of the generated code: the method passes the check, its locals have
C names of their own, and C reads the run as Ruby does, with the dropped calls passed over. -/
structure Method.Checked (m : Method) (mapPrefix : String) (callee : Behaviour) (args : List Word)
    (ivars : String → Value) : Prop where
  shape : m.checked mapPrefix = true
  names : m.NamesApart
  alike : ReadsAlikeAll (.generated callee m.dropped) .hash m.body (m.start args ivars)

end SpinelEbpf.Codegen
