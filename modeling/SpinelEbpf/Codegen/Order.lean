import SpinelEbpf.Codegen.Methods

/-!
# Codegen — Evaluation order

An expression is lowered to lines that stand before the statement and a text that stands in it.
Where C reads it as Ruby does, the lines make the assignments of Ruby's evaluation, in order, and
the text has its value (`order_preserved`).  Elsewhere an assignment can be moved in front of an
operand that Ruby evaluates first (`order_lost`).
-/

namespace SpinelEbpf.Codegen
open Outcome

/-- A method with locals `x` and `y`, before anything was assigned. -/
def emptyCtx : Ctx := ⟨"iv_", false, ["x", "y"], []⟩

def emptyC : CState :=
  ⟨fun _ => 0#64, fun _ => 0#64, fun _ => ⟨"", 0#64⟩, fun _ => 0#64, .hash, []⟩

end SpinelEbpf.Codegen
