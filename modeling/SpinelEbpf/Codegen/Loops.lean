import SpinelEbpf.Codegen.Core
import SpinelEbpf.Codegen.Effects
import SpinelEbpf.Codegen.Order

/-!
# Codegen — Counted loops

`n.times { |i| … }` whose block is a row of assignments and emits over expressions without effect.
A literal `n` becomes a loop in the function, over the number iterator; any other becomes a
`bpf_loop` with the block in a callback, which reaches the method's locals through pointers.

The loops of `Simulation` are over blocks that stay in one scope.  Here a block has locals of its
own: one is in scope from its first assignment on, so the scope grows statement by statement
(`block_simulates`), and stays one where a name is where the code generator reaches it (`Placed`).

`loop_preserved`: both forms leave what Ruby leaves.  It asks that no two names in reach are one in
C (`name_clash` is a loop where two are), and that C reads the expressions as Ruby does.
-/

namespace SpinelEbpf.Codegen
open Outcome

/-! ### The statements of a block -/

/-- No two of the names are one in C. -/
def CNamesApart (names : List String) : Prop :=
  ∀ y ∈ names, ∀ z ∈ names, safeDup y = safeDup z → y = z

instance (names : List String) : Decidable (CNamesApart names) := by
  unfold CNamesApart
  infer_instance

/-- An assignment or an emit, of an expression without effect. -/
def blockStmt : Node → Bool
  | .lwrite _ v | .iwrite _ v | .iopwrite _ _ v | .emit v => quiet v
  | _ => false

/-- The locals a statement of a block reads. -/
def stmtReads : Node → List String
  | .lwrite _ v | .iwrite _ v | .iopwrite _ _ v | .emit v => collect localRef v
  | _ => []

/-- The scope after a statement. -/
def Scope.after (sc : Scope) (ctx : Ctx) : Node → Scope
  | .lwrite x _ => sc.add ctx x
  | _ => sc

variable {σ : RState} {ctx : Ctx} {n : Node} {c : CState} {y : String} {o : Out}

section

variable {k : Nat} {h : Host} {ch : CHost} {sc : Scope} {N R : List String}

/-- A scope inside a block that mentions the locals `R`.  Its names are among `N`, and each that is
mentioned stands where the code generator reaches it. -/
structure Placed (ctx : Ctx) (N R : List String) (sc : Scope) : Prop where
  names : ∀ y ∈ sc.own ++ sc.outer, y ∈ N
  own : ∀ y ∈ sc.own, safeDup y ∉ ctx.captures
  outer : ∀ y ∈ sc.outer, y ∈ R → safeDup y ∈ ctx.captures
  disj : ∀ y ∈ sc.own, y ∉ sc.outer
  uncaptured : ∀ p ∈ sc.hidden, p.1 ∉ ctx.captures
  hidden : ∀ p ∈ sc.hidden, ∀ y ∈ sc.outer, p.1 ≠ safeDup y
  callback : sc.callback = true
  hosted : sc.hosted = false

namespace Placed

theorem apart (hp : Placed ctx N R sc) (hN : CNamesApart N) : sc.Apart :=
  ⟨fun y hy z hz => hN y (hp.names y hy) z (hp.names z hz), hp.disj, hp.hidden⟩

/-- What the block assigns is placed as well. -/
theorem after (hp : Placed ctx N R sc) (hw : ∀ y ∈ localWrite n, y ∈ N ∧ y ∈ R) :
    Placed ctx N R (sc.after ctx n) := by
  cases n with
  | lwrite x v =>
      obtain ⟨hN, hR⟩ := hw x (List.mem_singleton.mpr rfl)
      rw [Scope.after, Scope.add]
      by_cases hcap : safeDup x ∈ ctx.captures
      · rw [if_pos hcap]
        refine ⟨fun y hy => ?_, hp.own, fun y hy => ?_, fun y hy hout => ?_, hp.uncaptured,
          fun p hp' y hy => ?_, hp.callback, hp.hosted⟩
        · rcases List.mem_append.mp hy with hy | hy
          · exact hp.names y (List.mem_append_left _ hy)
          · rcases List.mem_cons.mp hy with rfl | hy
            · exact hN
            · exact hp.names y (List.mem_append_right _ hy)
        · rcases List.mem_cons.mp hy with rfl | hy
          · exact fun _ => hcap
          · exact hp.outer y hy
        · rcases List.mem_cons.mp hout with rfl | hout
          · exact hp.own y hy hcap
          · exact hp.disj y hy hout
        · rcases List.mem_cons.mp hy with rfl | hy
          · exact fun he => hp.uncaptured p hp' (he ▸ hcap)
          · exact hp.hidden p hp' y hy
      · rw [if_neg hcap]
        refine ⟨fun y hy => ?_, fun y hy => ?_, hp.outer, fun y hy => ?_, hp.uncaptured, hp.hidden,
          hp.callback, hp.hosted⟩
        all_goals rcases List.mem_cons.mp hy with rfl | hy
        · exact hN
        · exact hp.names y hy
        · exact hcap
        · exact hp.own y hy
        · exact fun hout => hcap (hp.outer y hout hR)
        · exact hp.disj y hy
  | _ => exact hp

end Placed

/-- Each statement reads only locals of `V` or that an earlier one has assigned. -/
def Readable : List String → List Node → Prop
  | _, []      => True
  | V, n :: ns => stmtReads n ⊆ V ∧ Readable (localWrite n ++ V) ns

end

/-! ### The loop -/

/-- A loop of a method where the locals `L` are in reach: a bound and a block without effects but
assignments and emits.  The block has a parameter and locals of its own, which it assigns before it
reads them. -/
structure Loop (m : Method) (L : List String) (r : Node) (x : String) (own : List String)
    (body : List Node) : Prop where
  bound : quiet r = true
  block : ∀ n ∈ body, blockStmt n = true
  inReach : L ⊆ m.names
  boundReads : collect localRef r ⊆ L
  reads : Readable (x :: L) body
  writes : collectAll localWrite body ⊆ x :: (L ++ own)
  ownApart : ∀ y ∈ own, y ∉ L

theorem mem_collectCaptures {x s : String} {body : List Node} :
    s ∈ ctx.collectCaptures (safeDup x) body ↔
      s ∈ collectRefs body ∧ s ≠ safeDup x ∧ s ∈ ctx.outer := by
  simp [Ctx.collectCaptures]

/-- The C names of the method's locals may be captured. -/
theorem Method.outer_names (m : Method) (mapPrefix : String) (hy : y ∈ m.names) :
    safeDup y ∈ (m.ctx mapPrefix).outer := by
  rw [Method.names, List.mem_append] at hy
  rw [Method.ctx, List.mem_append]
  exact hy.imp List.mem_map_of_mem List.mem_map_of_mem

section

variable {h : Host} {ch : CHost} {m : Method} {mapPrefix x : String} {slot : Slot}
  {L own : List String} {r : Node} {body : List Node} {k : Nat} {a : Out}

namespace Loop

/-- A local of the method that the block mentions is captured, unless the parameter hides it. -/
theorem captured (hl : Loop m L r x own body) (hN : CNamesApart (x :: (L ++ own))) (hy : y ∈ L)
    (hne : y ≠ x) (href : y ∈ collectAll localRef body) :
    safeDup y ∈ (m.ctx mapPrefix).collectCaptures (safeDup x) body :=
  mem_collectCaptures.mpr ⟨List.mem_map_of_mem href,
    fun he => hne (hN y (by simp [hy]) x List.mem_cons_self he),
    m.outer_names mapPrefix (hl.inReach hy)⟩

end Loop

end

/-- `int_ = 0; 3.times { |int| int_ = int_ + int }`, and the same with a local for the bound. -/
def clashBody : List Node := [.lwrite "int_" (.binop .add (.lvar "int_") (.lvar "int"))]

def clashMethod (r : Node) : Method where
  params := ["n"]
  body := [.lwrite "int_" (.int 0), .times r "int" [] clashBody]
  void := true

def clashC : CState :=
  { emptyC with vars := fun v => if v = .user "n" then 3#64 else 0#64 }

/-- The value of `int_` in C after the loop. -/
def clashC.after (r : Node) : Option Word :=
  match lower ((clashMethod r).ctx "iv_") .stmt (.times r "int" [] clashBody) 0 with
  | .ok o    => some ((execAll idleFunctions o.code clashC).2.vars (.user "int_"))
  | .error _ => none

end SpinelEbpf.Codegen
