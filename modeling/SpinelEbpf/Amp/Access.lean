import SpinelEbpf.Amp.Walk
import SpinelEbpf.Support.Bpf.Machine

/-!
# Amp — memory accesses of accepted texts

The checker's third promise is that every load and store stays in the program's stack frame or
in the ivar carveout.  The walk follows the text and not its runs, so the promise holds for the
runs on which the walk's knowledge of the base registers is still true.  `staleAfter` follows,
along a run, the registers for which it need not be: a taken branch makes stale what the skipped
instructions would have assigned, a move or an addition that does not carry the whole 64-bit
value makes its destination stale, and so does a call in an encoding the walk takes for a branch.
Every other write freshens its destination.

`Tracks` is the invariant: what the walk knows of a register that is not stale is true.  A run
keeps it (`tracks_step`, `tracks_run`), and with it an access through a register that is not
stale starts inside the frame or the carveout (`access_start`).  The checker looks at the first
byte only; `Covered` adds that the access does not run across the end of either region.
-/

namespace SpinelEbpf.Amp
open Function Bpf

variable {b : Board} {beyond : BitVec 4 → Regv} {code : List Insn} {top x a : BitVec 64} {r : Reg}

/-! ### The two regions -/

/-- `x` lies in the frame below `top`. -/
def InFrame (top x : BitVec 64) : Prop :=
  ∃ k : Nat, 1 ≤ k ∧ k ≤ 512 ∧ x = top - BitVec.ofNat 64 k

/-- `x` lies in the carveout. -/
def InIvars (b : Board) (x : BitVec 64) : Prop :=
  b.ivarsBase ≤ x.toNat ∧ x.toNat < b.ivarsBase + b.ivarsSize

instance (b : Board) (x : BitVec 64) : Decidable (InIvars b x) :=
  inferInstanceAs (Decidable (_ ∧ _))

/-- The value `x` is what the walk takes it for. -/
def Agrees (top : BitVec 64) (v : Regv) (x : BitVec 64) : Prop :=
  match v.known with
  | .unknown  => True
  | .constant => x = v.val
  | .stack    => x = top

/-- The walk is right about every register that is not stale. -/
def Tracks (top : BitVec 64) (reg : RegFile) (stale : Reg → Prop) (regs : Regs) : Prop :=
  ∀ r, ¬ stale r → Agrees top (reg r) (regs r)

theorem agrees_unknown {v : Regv} (h : v.known = .unknown) : Agrees top v x := by
  simp [Agrees, h]

/-- **An accepted address starts in one of the two regions.** -/
theorem checkAddr_sound {v : Regv} {off : BitVec 16} {i : Nat} {how : String}
    (h : checkAddr b v off i how = .ok ()) (hx : Agrees top v x) :
    InFrame top (x + off.signExtend 64) ∨ InIvars b (x + off.signExtend 64) := by
  unfold checkAddr at h
  unfold Agrees at hx
  cases hk : v.known with
  | unknown => simp only [hk] at h; cases h
  | constant =>
      simp only [hk] at h hx
      subst hx
      split at h
      · exact .inr ‹_›
      · cases h
  | stack =>
      simp only [hk] at h hx
      subst hx
      split at h
      · cases h
      rename_i hoff
      simp only [ampStackBytes] at hoff
      obtain ⟨k, hk⟩ : ∃ k : Nat, off.toInt = -(k : Int) := ⟨(-off.toInt).toNat, by omega⟩
      refine .inl ⟨k, by omega, by omega, ?_⟩
      rw [BitVec.signExtend, hk, BitVec.ofInt_neg, BitVec.ofInt_natCast, BitVec.sub_eq_add_neg]

/-! ### Staleness -/

/-- The registers the walk may be wrong about after a step from `s` to `s'`, from those before. -/
def staleAfter (code : List Insn) (s s' : State) (stale : Reg → Prop) (r : Reg) : Prop :=
  match code[s.pc]? with
  | none     => stale r
  | some ins =>
      if ins.opcode = 0x85#8 then 5 < r ∧ stale r
      else if ins.isCall then r ≤ 5 ∨ stale r
      else if ins.cls = 0x05#8 ∨ ins.cls = 0x06#8 then
        -- a branch: backwards, or over instructions that assign `r`
        stale r ∨ s'.pc ≤ s.pc ∨ Assigned code (s.pc + 1) s'.pc r
      else if assigns ins r = false then stale r
      else if ins.isLddw then ins.src ≠ 0#4
      else if ins.opcode = 0xbf#8 ∨ ins.opcode = 0xbc#8 then
        ∃ q, reg? ins.src = some q ∧ (stale q ∨ s'.regs r ≠ s.regs q)
      else if ins.opcode = 0x07#8 ∨ ins.opcode = 0x04#8 then
        stale r ∨ s'.regs r ≠ s.regs r + ins.imm.signExtend 64
      else False

section Step

variable {v : BitVec 64} {d : Reg} {nxt : Option Insn} {s s' : State} {stale : Reg → Prop}
  {ins : Insn} {w w' : Walk}

theorem staleAfter_arith (hi : code[s.pc]? = some ins) (hc : ins.cls = 0x04#8 ∨ ins.cls = 0x07#8) :
    staleAfter code s s' stale r ↔
      if reg? ins.dst ≠ some r then stale r
      else if ins.opcode = 0xbf#8 ∨ ins.opcode = 0xbc#8 then
        ∃ q, reg? ins.src = some q ∧ (stale q ∨ s'.regs r ≠ s.regs q)
      else if ins.opcode = 0x07#8 ∨ ins.opcode = 0x04#8 then
        stale r ∨ s'.regs r ≠ s.regs r + ins.imm.signExtend 64
      else False := by
  have ho : ins.opcode ≠ 0x85#8 := by rintro ho; simp [Insn.cls, ho] at hc
  have hl : ins.isLddw = false := Insn.isLddw_of_cls (by rcases hc with hc | hc <;> simp [hc])
  have hcall : ins.isCall = false := by rcases hc with hc | hc <;> simp [Insn.isCall, hc]
  have hj : ¬ (ins.cls = 0x05#8 ∨ ins.cls = 0x06#8) := by rcases hc with hc | hc <;> simp [hc]
  have ha : assigns ins r = false ↔ reg? ins.dst ≠ some r := by
    rcases hc with hc | hc <;> simp [assigns, ho, hc]
  simp only [staleAfter, hi, ho, hl, hcall, hj, ha, if_false, Bool.false_eq_true]

theorem tracks_alu {y : BitVec 64} (hi : code[s.pc]? = some ins) (hd : reg? ins.dst = some d)
    (hy : ins.operand s.regs = some y) (hv : ins.aluValue (s.regs d) y = some v)
    (hs' : s'.regs = update s.regs d v) (hw : Walked b beyond s.pc ins nxt w w')
    (h : Tracks top w.reg stale s.regs) :
    Tracks top w'.reg (staleAfter code s s' stale) s'.regs := by
  have hc := cls_of_aluValue hv
  obtain ⟨k, hreg, hk⟩ := hw.arith hc hd
  intro r hr
  rw [staleAfter_arith hi hc] at hr
  rw [hreg]
  by_cases hrd : r = d
  swap
  · have hne : reg? ins.dst ≠ some r := by rw [hd]; rintro ⟨⟩; exact hrd rfl
    rw [if_pos hne] at hr
    rw [hs', update_of_ne hrd, update_of_ne hrd]
    exact h r hr
  subst hrd
  rw [if_neg (by simp [hd])] at hr
  rw [update_self]
  have hval : s'.regs r = v := by rw [hs', update_self]
  rcases hk with hk | ⟨rfl, ho⟩ | ⟨rfl, ho⟩ | ⟨rfl, ho⟩ | ⟨rfl, hk, ho⟩
  · exact agrees_unknown hk
  · -- a 64-bit immediate
    simp only [Insn.operand, Insn.isReg, ho] at hy
    simp [Insn.aluValue, Insn.cls, Insn.op, Insn.mov64, Insn.isReg, ho] at hv
    cases hy
    simp [Agrees, hval, ← hv]
  · simp only [Insn.operand, Insn.isReg, ho] at hy
    simp [Insn.aluValue, Insn.cls, Insn.op, Insn.mov64, Insn.mov32, Insn.isReg, ho] at hv
    cases hy
    have hlow : (ins.imm.signExtend 64).setWidth 32 = ins.imm := by grind
    simp [Agrees, hval, ← hv, hlow]
  · -- a move that kept the whole value of a register the walk is right about
    rw [if_pos ho] at hr
    have hx : ins.isReg = true := by rcases ho with ho | ho <;> simp [Insn.isReg, ho]
    simp only [Insn.operand, hx, if_true, Option.map_eq_some_iff] at hy
    obtain ⟨q, hq, -⟩ := hy
    rw [lookup_eq hq]
    have hkeep : s'.regs r = s.regs q := by
      by_contra hne
      exact hr ⟨q, hq, .inr hne⟩
    rw [hkeep]
    exact h q fun hst => hr ⟨q, hq, .inl hst⟩
  · have hb : ¬ (ins.opcode = 0xbf#8 ∨ ins.opcode = 0xbc#8) := by
      rcases ho with ho | ho <;> simp [ho]
    rw [if_neg hb, if_pos ho, not_or, not_not] at hr
    have hold : s.regs r = (w.reg r).val := by simpa [Agrees, hk] using h r hr.1
    simp [Agrees, hr.2, hold]

theorem staleAfter_jumps (hi : code[s.pc]? = some ins) (hc : ins.cls = 0x05#8 ∨ ins.cls = 0x06#8)
    (ho : ins.opcode ≠ 0x85#8) :
    staleAfter code s s' stale r ↔
      if ins.isCall then r ≤ 5 ∨ stale r
      else stale r ∨ s'.pc ≤ s.pc ∨ Assigned code (s.pc + 1) s'.pc r := by
  simp only [staleAfter, hi, ho, hc, if_false, if_true]

theorem staleAfter_wide (hi : code[s.pc]? = some ins) (hl : ins.isLddw = true) :
    staleAfter code s s' stale r ↔ if reg? ins.dst ≠ some r then stale r else ins.src ≠ 0#4 := by
  have ho : ins.opcode = 0x18#8 := by simpa [Insn.isLddw] using hl
  have hc : ins.cls = 0x00#8 := by simp [Insn.cls, ho]
  have hcall : ins.isCall = false := by simp [Insn.isCall, hc]
  have ha : assigns ins r = false ↔ reg? ins.dst ≠ some r := by simp [assigns, ho, hc]
  simp [staleAfter, hi, ho, hl, hc, hcall, ha]

theorem staleAfter_memory (hi : code[s.pc]? = some ins)
    (hc : ins.cls = 0x01#8 ∨ ins.cls = 0x02#8 ∨ ins.cls = 0x03#8) :
    staleAfter code s s' stale r ↔
      if ins.cls = 0x01#8 ∧ reg? ins.dst = some r then False else stale r := by
  have ho {o : BitVec 8} (h : o &&& 0x07#8 ≠ 0x01#8 ∧ o &&& 0x07#8 ≠ 0x02#8 ∧
      o &&& 0x07#8 ≠ 0x03#8) : ins.opcode ≠ o := by
    rintro rfl; exact hc.elim h.1 (·.elim h.2.1 h.2.2)
  have hl : ins.isLddw = false := Insn.isLddw_of_cls (by rcases hc with hc | hc | hc <;> simp [hc])
  have hcall : ins.isCall = false := by rcases hc with hc | hc | hc <;> simp [Insn.isCall, hc]
  have hj : ¬ (ins.cls = 0x05#8 ∨ ins.cls = 0x06#8) := by
    rcases hc with hc | hc | hc <;> simp [hc]
  have ha : assigns ins r = false ↔ ¬ (ins.cls = 0x01#8 ∧ reg? ins.dst = some r) := by
    rcases hc with hc | hc | hc <;> simp [assigns, hc, ho (o := 0x85#8) (by decide)]
  simp only [staleAfter, hi, hl, hcall, hj, ha, ho (o := 0x85#8) (by decide),
    ho (o := 0xbf#8) (by decide), ho (o := 0xbc#8) (by decide), ho (o := 0x07#8) (by decide),
    ho (o := 0x04#8) (by decide), if_false, Bool.false_eq_true, or_self]
  by_cases hd : ins.cls = 0x01#8 ∧ reg? ins.dst = some r <;> simp [hd]

theorem tracks_of_eq {reg : RegFile} {stale' : Reg → Prop} {regs : Regs}
    (h : Tracks top reg stale regs) (hst : ∀ r, stale r → stale' r) : Tracks top reg stale' regs :=
  fun r hr => h r fun hs => hr (hst r hs)

theorem tracks_wide {nxt : Insn} (hi : code[s.pc]? = some ins) (hl : ins.isLddw = true)
    (hd : reg? ins.dst = some d) (hv : ins.src = 0#4 → v = nxt.imm ++ ins.imm)
    (hs' : s'.regs = update s.regs d v) (hw : Walked b beyond s.pc ins (some nxt) w w')
    (h : Tracks top w.reg stale s.regs) :
    Tracks top w'.reg (staleAfter code s s' stale) s'.regs := by
  intro r hr
  rw [staleAfter_wide hi hl] at hr
  rw [hw.wide hl, assign_eq hd, hs']
  by_cases hrd : r = d
  · subst hrd
    rw [if_neg (not_not.mpr hd), not_not] at hr
    rw [update_self, update_self]
    exact hv hr
  · rw [if_pos (by rw [hd]; rintro ⟨⟩; exact hrd rfl)] at hr
    rw [update_of_ne hrd, update_of_ne hrd]
    exact h r hr

theorem tracks_load (hi : code[s.pc]? = some ins) (hc : ins.cls = 0x01#8)
    (hd : reg? ins.dst = some d) (hs' : s'.regs = update s.regs d v)
    (hw : Walked b beyond s.pc ins nxt w w') (h : Tracks top w.reg stale s.regs) :
    Tracks top w'.reg (staleAfter code s s' stale) s'.regs := by
  obtain ⟨-, ⟨-, -, hreg⟩ | ⟨hne, -⟩⟩ := hw.memory (.inl hc)
  swap
  · exact absurd hc hne
  intro r hr
  rw [staleAfter_memory hi (.inl hc)] at hr
  rw [hreg, forget_eq hd, hs']
  by_cases hrd : r = d
  · subst hrd
    exact agrees_unknown (by rw [update_self])
  · have hne : reg? ins.dst ≠ some r := by rw [hd]; rintro ⟨⟩; exact hrd rfl
    rw [if_neg fun h => hne h.2] at hr
    rw [update_of_ne hrd, update_of_ne hrd]
    exact h r hr

theorem tracks_store (hi : code[s.pc]? = some ins) (hc : ins.cls = 0x02#8 ∨ ins.cls = 0x03#8)
    (hs' : s'.regs = s.regs) (hw : Walked b beyond s.pc ins nxt w w')
    (h : Tracks top w.reg stale s.regs) :
    Tracks top w'.reg (staleAfter code s s' stale) s'.regs := by
  have hne : ins.cls ≠ 0x01#8 := by rcases hc with hc | hc <;> simp [hc]
  obtain ⟨-, ⟨hc', -⟩ | ⟨-, -, hreg⟩⟩ := hw.memory (.inr hc)
  · exact absurd hc' hne
  · rw [hreg, hs']
    exact tracks_of_eq h fun r hr => by simp [staleAfter_memory hi (.inr hc), hne, hr]

theorem tracks_branch {y : BitVec 64} {t : Bool} (hi : code[s.pc]? = some ins)
    (ht : ins.taken x y = some t) (hs' : s'.regs = s.regs) (hw : Walked b beyond s.pc ins nxt w w')
    (h : Tracks top w.reg stale s.regs) :
    Tracks top w'.reg (staleAfter code s s' stale) s'.regs := by
  have hc := Insn.cls_of_taken ht
  obtain ⟨he, hcall⟩ := Insn.opcode_of_taken ht
  have ho := Insn.opcode_ne_of_not_call hcall
  rcases hw.jumps hc with ⟨ho', -⟩ | he' | ⟨-, -, -, hreg⟩
  · exact absurd ho' ho
  · exact absurd he' he
  · rw [hreg, hs']
    exact tracks_of_eq h fun r hr => by simp [staleAfter_jumps hi hc ho, hcall, hr]

theorem tracks_call (hi : code[s.pc]? = some ins) (hc : ins.isCall = true)
    (hs' : ∀ r : Reg, 5 < r → s'.regs r = s.regs r) (hw : Walked b beyond s.pc ins nxt w w')
    (h : Tracks top w.reg stale s.regs) :
    Tracks top w'.reg (staleAfter code s s' stale) s'.regs := by
  have hcls := cls_of_isCall hc
  intro r hst
  rcases hw.jumps hcls with ⟨ho, -, -, hreg⟩ | ho | ⟨ho, -, -, hreg⟩
  · -- a listed call: the walk has forgotten what the call clobbers
    rw [hreg]
    by_cases h5 : r ≤ 5
    · exact agrees_unknown (by simp only [clobber, h5, if_true])
    · have h5' : 5 < r := Fin.not_le.mp h5
      have hstale : ¬ stale r := fun hs => hst (by simp [staleAfter, hi, ho, h5', hs])
      rw [hs' r h5']
      simpa only [clobber, h5, if_false] using h r hstale
  · simp [Insn.isCall, Insn.op, ho] at hc
  · rw [staleAfter_jumps hi hcls ho, if_pos hc, not_or] at hst
    rw [hreg, hs' r (Fin.not_le.mp hst.1)]
    exact h r hst.2

/-- **What the walk leaves behind is right after the step.** -/
theorem tracks_walked {long : Bool} (hstep : Step long code s s') (hi : code[s.pc]? = some ins)
    (hw : Walked b beyond s.pc ins code[s.pc + 1]? w w') (h : Tracks top w.reg stale s.regs) :
    Tracks top w'.reg (staleAfter code s s' stale) s'.regs := by
  have get {ins' : Insn} (hi' : code[s.pc]? = some ins') : ins' = ins :=
    Option.some.inj (hi'.symm.trans hi)
  cases hstep with
  | alu hi' hd hy hv =>
      obtain rfl := get hi'
      exact tracks_alu hi hd hy hv rfl hw h
  | lddw hi' hl hn hd hv =>
      obtain rfl := get hi'
      rw [hn] at hw
      exact tracks_wide hi hl hd hv rfl hw h
  | load hi' hc hd =>
      obtain rfl := get hi'
      exact tracks_load hi hc hd rfl hw h
  | storeImm hi' hc =>
      obtain rfl := get hi'
      exact tracks_store hi (.inl hc) rfl hw h
  | storeReg hi' hc =>
      obtain rfl := get hi'
      exact tracks_store hi (.inr hc) rfl hw h
  | atomic hi' hc hm =>
      -- refused by the walk: the mode is not `BPF_MEM`
      obtain rfl := get hi'
      have hm' := (hw.memory (.inr (.inr hc))).1
      rw [hm] at hm'
      exact absurd hm' (by decide)
  | jump hi' _ _ ht | fall hi' _ _ ht =>
      obtain rfl := get hi'
      exact tracks_branch hi ht rfl hw h
  | call hi' hc _ hr =>
      obtain rfl := get hi'
      exact tracks_call hi hc hr hw h

end Step

/-! ### Runs -/

/-- Wherever a run stands inside the text, the walk has been there and is right about it. -/
def Followed (b : Board) (beyond : BitVec 4 → Regv) (code : List Insn) (top : BitVec 64)
    (s : State) (stale : Reg → Prop) : Prop :=
  s.pc < code.length →
    Boundary code s.pc ∧ ∃ w, WalksTo b beyond code s.pc w ∧ Tracks top w.reg stale s.regs

theorem followed_start {s : State} (hpc : s.pc = 0) :
    Followed b beyond code (s.regs 10) s (fun _ => False) := by
  intro _
  refine ⟨hpc ▸ .start, walkInit, hpc ▸ .start, fun r _ => ?_⟩
  by_cases hr : r = 10
  · subst hr; simp [Agrees, walkInit]
  · exact agrees_unknown (by simp [walkInit, hr])

/-- **One step keeps the walk right.** -/
theorem followed_step {long : Bool} {s s' : State} {stale : Reg → Prop}
    (hacc : Accepts b beyond code) (h : Followed b beyond code top s stale)
    (hstep : Step long code s s') (hslot : ¬ SecondSlot code s'.pc) :
    Followed b beyond code top s' (staleAfter code s s' stale) := by
  intro hlt
  obtain ⟨hb, w, hw, ht⟩ := h hstep.pc_lt
  have hb' := (boundary_or_secondSlot (Nat.le_of_lt hlt)).resolve_right hslot
  refine ⟨hb', ?_⟩
  obtain ⟨ins, hi, hpc⟩ := hstep.next_or_jump
  obtain ⟨w', hw'⟩ := hacc.walkInsn_eq hw hi
  have ht' := tracks_walked hstep hi (walkInsn_ok hw') ht
  rcases hpc with ⟨-, hpc⟩ | ⟨x, y, htk, -⟩
  · exact ⟨w', by simpa only [hpc] using hw.next hi hw', ht'⟩
  -- a taken branch: the walk goes on to the target through the instructions between
  have hc := Insn.cls_of_taken htk
  obtain ⟨-, hcall⟩ := Insn.opcode_of_taken htk
  have ho := Insn.opcode_ne_of_not_call hcall
  have hst (r : Reg) : staleAfter code s s' stale r ↔ _ := staleAfter_jumps hi hc ho
  by_cases hback : s'.pc ≤ s.pc
  · obtain ⟨w'', hw''⟩ := hacc.walksTo hb'
    exact ⟨w'', hw'', fun r hr => absurd (by simp [hst r, hcall, hback]) hr⟩
  have hwidth : ins.width = 1 := by
    have hne : ins.cls ≠ 0x00#8 := by rcases hc with hc | hc <;> simp [hc]
    simp [Insn.width, Insn.isLddw_of_cls hne]
  have hnext := hw.next hi hw'
  have hbnext := hb.next hi
  rw [hwidth] at hnext hbnext
  rcases hnext.between hacc hbnext (by omega) (Nat.le_of_lt hlt) with hs | ⟨w'', hw'', hreg⟩
  · exact absurd hs hslot
  refine ⟨w'', hw'', fun r hr => ?_⟩
  have hna : ¬ Assigned code (s.pc + 1) s'.pc r := fun ha => hr (by simp [hst r, hcall, ha])
  rw [hreg r hna]
  exact ht' r hr

/-- What a run needs at a state: it stands on no second slot, and an access it is about to make
goes through a base register that is not stale and does not run across the end of a region. -/
def Covered (b : Board) (code : List Insn) (top : BitVec 64) (s : State) (stale : Reg → Prop) :
    Prop :=
  ¬ SecondSlot code s.pc ∧
  ∀ ins r a, code[s.pc]? = some ins → ins.base? = some r → ins.access s.regs = some a →
    ¬ stale r ∧ ∀ k : Nat, 0 < k → k < ins.accessBytes →
      a + BitVec.ofNat 64 k ≠ top ∧ (a + BitVec.ofNat 64 k).toNat ≠ b.ivarsBase + b.ivarsSize

/-- The runs from `s₀` whose every state is covered, with the staleness they reach. -/
inductive CoveredRun (b : Board) (long : Bool) (code : List Insn) (s₀ : State) :
    State → (Reg → Prop) → Prop where
  | start (hpc : s₀.pc = 0) (h : Covered b code (s₀.regs 10) s₀ fun _ => False) :
      CoveredRun b long code s₀ s₀ fun _ => False
  | step {s s' : State} {stale : Reg → Prop} (h : CoveredRun b long code s₀ s stale)
      (hstep : Step long code s s')
      (hc : Covered b code (s₀.regs 10) s' (staleAfter code s s' stale)) :
      CoveredRun b long code s₀ s' (staleAfter code s s' stale)

section Run

variable {long : Bool} {s₀ s : State} {stale : Reg → Prop}

theorem CoveredRun.covered (h : CoveredRun b long code s₀ s stale) :
    Covered b code (s₀.regs 10) s stale := by
  cases h with
  | start _ h => exact h
  | step _ _ h => exact h

/-- **A covered run keeps the walk right.** -/
theorem CoveredRun.followed (hacc : Accepts b beyond code) (h : CoveredRun b long code s₀ s stale) :
    Followed b beyond code (s₀.regs 10) s stale := by
  induction h with
  | start hpc _ => exact followed_start hpc
  | step _ hstep hc ih => exact followed_step hacc ih hstep hc.1

/-- An access through a base the walk is right about starts in one of the regions. -/
theorem access_start {ins : Insn} (hacc : Accepts b beyond code)
    (h : Followed b beyond code top s stale) (hi : code[s.pc]? = some ins) (hr : ins.base? = some r)
    (ha : ins.access s.regs = some a) (hst : ¬ stale r) :
    InFrame top a ∨ InIvars b a := by
  obtain ⟨hb, w, hw, ht⟩ := h (List.getElem?_eq_some_iff.mp hi).1
  obtain ⟨w', hw'⟩ := hacc.walkInsn_eq hw hi
  obtain ⟨hcls, hreg⟩ := Insn.cls_of_base hr
  obtain rfl : s.regs r + ins.off.signExtend 64 = a := by simpa [Insn.access, hr] using ha
  obtain ⟨-, ⟨hc, hcheck, -⟩ | ⟨hc, hcheck, -⟩⟩ := (walkInsn_ok hw').memory hcls
  · rw [if_pos hc] at hreg
    rw [lookup_eq hreg] at hcheck
    exact checkAddr_sound hcheck (ht r hst)
  · rw [if_neg hc] at hreg
    rw [lookup_eq hreg] at hcheck
    exact checkAddr_sound hcheck (ht r hst)

end Run

/-! ### Whole accesses -/

/-- An access that starts in the frame and does not reach its top stays in it. -/
theorem frame_extent {n k : Nat} (h : InFrame top a)
    (hend : ∀ k : Nat, 0 < k → k < n → a + BitVec.ofNat 64 k ≠ top) (hk : k < n) :
    InFrame top (a + BitVec.ofNat 64 k) := by
  obtain ⟨m, hm, hm', rfl⟩ := h
  by_cases hkm : k < m
  · refine ⟨m - k, by omega, by omega, ?_⟩
    have hsplit : BitVec.ofNat 64 m = BitVec.ofNat 64 (m - k) + BitVec.ofNat 64 k := by
      rw [← BitVec.ofNat_add, Nat.sub_add_cancel (Nat.le_of_lt hkm)]
    rw [hsplit]
    generalize BitVec.ofNat 64 (m - k) = x
    generalize BitVec.ofNat 64 k = y
    bv_omega
  · refine absurd ?_ (hend m (by omega) (by omega))
    generalize BitVec.ofNat 64 m = x
    bv_omega

/-- An access that starts in the carveout and does not reach its end stays in it. -/
theorem ivars_extent {n k : Nat} (h : InIvars b a)
    (hend : ∀ k : Nat, 0 < k → k < n → (a + BitVec.ofNat 64 k).toNat ≠ b.ivarsBase + b.ivarsSize)
    (hk : k < n) (hn : n ≤ 8) : InIvars b (a + BitVec.ofNat 64 k) := by
  obtain ⟨hlo, hhi⟩ := h
  have hlt := b.ivars_lt
  have hadd {j : Nat} (hj : j ≤ 8) : (a + BitVec.ofNat 64 j).toNat = a.toNat + j := by
    rw [BitVec.toNat_add, BitVec.toNat_ofNat, Nat.mod_eq_of_lt (by omega : j < 2 ^ 64),
      Nat.mod_eq_of_lt (by omega)]
  have hin : a.toNat + k < b.ivarsBase + b.ivarsSize := by
    by_contra hout
    obtain ⟨j, hj⟩ : ∃ j, a.toNat + j = b.ivarsBase + b.ivarsSize :=
      ⟨b.ivarsBase + b.ivarsSize - a.toNat, by omega⟩
    exact hend j (by omega) (by omega) (by rw [hadd (by omega), hj])
  exact ⟨by rw [hadd (by omega)]; omega, by rw [hadd (by omega)]; exact hin⟩

/-- **Accesses of accepted texts stay inside.**  In a run of an accepted text whose states are all
covered, every byte of every access lies in the frame or in the carveout. -/
theorem covered_access_inside {text : List UInt8} {cost : UInt32} {long : Bool} {s₀ s : State}
    {stale : Reg → Prop} {ins : Insn} {a : BitVec 64} {k : Nat}
    (hacc : ampCheckText b beyond text = .ok cost)
    (hrun : CoveredRun b long (slots text) s₀ s stale) (hi : (slots text)[s.pc]? = some ins)
    (ha : ins.access s.regs = some a) (hk : k < ins.accessBytes) :
    InFrame (s₀.regs 10) (a + BitVec.ofNat 64 k) ∨ InIvars b (a + BitVec.ofNat 64 k) := by
  have hacc := accepts_of_ampCheckText hacc
  obtain ⟨r, hr, -⟩ := Option.map_eq_some_iff.mp ha
  obtain ⟨hst, hend⟩ := hrun.covered.2 ins r a hi hr ha
  rcases access_start hacc (hrun.followed hacc) hi hr ha hst with h | h
  · exact .inl (frame_extent h (fun j h₀ hj => (hend j h₀ hj).1) hk)
  · exact .inr (ivars_extent h (fun j h₀ hj => (hend j h₀ hj).2) hk ins.accessBytes_le)

/-- A store of `r1` at `r10 - 8`. -/
def spill : List UInt8 := [0x7b, 0x1a, 0xf8, 0xff, 0, 0, 0, 0]

theorem covered_access_spill :
    InFrame 0x1000#64 (0xff8#64 + BitVec.ofNat 64 7) ∨
      InIvars .imx95m7 (0xff8#64 + BitVec.ofNat 64 7) := by
  have hacc : ampCheckText .imx95m7 (fun _ => ⟨.unknown, 0#64⟩) spill = .ok 4 := rfl
  have hend : ∀ k < 8, 0 < k → 0xff8#64 + BitVec.ofNat 64 k ≠ 0x1000#64 ∧
      (0xff8#64 + BitVec.ofNat 64 k).toNat ≠ 0x20040000 := by decide
  have hrun : CoveredRun .imx95m7 false (slots spill) ⟨0, fun _ => 0x1000#64, fun _ => 0#8⟩
      ⟨0, fun _ => 0x1000#64, fun _ => 0#8⟩ fun _ => False := by
    refine .start rfl ⟨not_secondSlot (by decide), ?_⟩
    rintro ins r a ⟨⟩ hr ⟨⟩
    exact ⟨id, fun k h₀ hk => hend k hk h₀⟩
  have ha : (Insn.ofBytes 0x7b 0x1a 0xf8 0xff 0 0 0 0).access (fun _ => 0x1000#64) =
      some 0xff8#64 := rfl
  have hk : 7 < (Insn.ofBytes 0x7b 0x1a 0xf8 0xff 0 0 0 0).accessBytes := by decide
  have hin := covered_access_inside hacc hrun rfl ha hk
  exact hin

/-- The base register is set by an instruction that the first one jumps over. -/
def skippedBase : List UInt8 :=
  [0x05, 0x00, 1, 0, 0x00, 0x00, 0x00, 0x00,
   0xb7, 0x02, 0, 0, 0x00, 0xff, 0x03, 0x20,
   0x7b, 0x12, 0, 0, 0x00, 0x00, 0x00, 0x00,
   0x95, 0x00, 0, 0, 0x00, 0x00, 0x00, 0x00]

/-- The walk assigns the base register, the run does not: the store goes where `r2` happens to
point. -/
theorem skippedBase_stores_outside :
    ampCheckText .imx95m7 (fun _ => ⟨.unknown, 0#64⟩) skippedBase = .ok 7 ∧
    ∃ (s₀ s : State) (ins : Insn), s₀.pc = 0 ∧ Steps false (slots skippedBase) s₀ s ∧
      (slots skippedBase)[s.pc]? = some ins ∧ ins.cls = 0x03#8 ∧
      ins.access s.regs = some 0xdeadbeef#64 ∧
      ¬ (InFrame (s₀.regs 10) 0xdeadbeef#64 ∨ InIvars .imx95m7 0xdeadbeef#64) := by
  refine ⟨rfl, ⟨0, fun _ => 0xdeadbeef#64, fun _ => 0#8⟩, ⟨2, fun _ => 0xdeadbeef#64, fun _ => 0#8⟩,
    Insn.ofBytes 0x7b 0x12 0 0 0 0 0 0, rfl, .single ?_, rfl, rfl, rfl, ?_⟩
  · exact @Step.jump false (slots skippedBase) ⟨0, fun _ => 0xdeadbeef#64, fun _ => 0#8⟩
      (Insn.ofBytes 0x05 0 1 0 0 0 0 0) 0 0#64 2 rfl rfl rfl rfl rfl
  · rintro (⟨k, hk, hk', h⟩ | h)
    · dsimp only at h
      bv_omega
    · exact absurd h (by decide)

end SpinelEbpf.Amp
