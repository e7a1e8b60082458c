import Mathlib

/-!
# Offcpu — a request's window on a thread

The four off-CPU builtins as steps on the two maps they share. `recvStash` notes the buffer a
receive will fill, `begin` opens the thread's window when an HTTP request has arrived in it,
`account` runs at every scheduler switch and touches the windows of the thread that leaves and of
the thread that comes, and `emit` closes the window when the response is sent.

What a step reads from outside (the clock, user memory, the ring's room) comes with the event.

* `lookup_account`: what a switch does to every thread's window.
* `records_run_snoc`: one more event adds at most the record it emits.
-/

namespace SpinelEbpf.Offcpu

/-! ### The maps -/

/-- A hash map of the kernel, keyed by thread. -/
abbrev ThreadMap (α : Type) := AList fun _ : UInt32 => α

/-- The capacity of the maps. -/
def maxEntries : Nat := 4096

/-- There is room for the thread's entry: it has one already, or the map is not full. -/
def HasRoom {α : Type} (m : ThreadMap α) (tid : UInt32) : Prop :=
  (m.lookup tid).isSome = true ∨ m.entries.length < maxEntries

instance {α : Type} (m : ThreadMap α) (tid : UInt32) : Decidable (HasRoom m tid) :=
  inferInstanceAs (Decidable (_ ∨ _))

/-- An update that fails on a full map. -/
def update {α : Type} (m : ThreadMap α) (tid : UInt32) (v : α) : ThreadMap α :=
  if HasRoom m tid then m.insert tid v else m

/-- A write through the pointer a lookup returned. -/
def modify {α : Type} (m : ThreadMap α) (tid : UInt32) (f : α → α) : ThreadMap α :=
  match m.lookup tid with
  | some v => m.insert tid (f v)
  | none => m

theorem lookup_modify {α : Type} (m : ThreadMap α) (tid : UInt32) (f : α → α) (t : UInt32) :
    (modify m tid f).lookup t = if t = tid then (m.lookup t).map f else m.lookup t := by
  unfold modify
  by_cases ht : t = tid
  · subst ht
    cases h : m.lookup t with
    | none => simp [h]
    | some v => simp [AList.lookup_insert]
  · rw [if_neg ht]
    cases m.lookup tid with
    | none => rfl
    | some v => exact AList.lookup_insert_ne ht

/-! ### Windows, records and events -/

structure Win where
  startNs : UInt64
  offcpuNs : UInt64
  sleepTs : UInt64
  waitStack : Int
  req : List UInt8
  hdrExt : List UInt8
  deriving DecidableEq, Repr

/-- Who is running when a record is written. -/
structure Task where
  pid : UInt32
  comm : List UInt8
  cgid : UInt64
  deriving DecidableEq, Repr

structure Record where
  timestamp : UInt64
  task : Task
  durationNs : UInt64
  startKtime : UInt64
  hdrExt : List UInt8
  offcpuNs : UInt64
  waitStack : Int
  req : List UInt8
  resp : List UInt8
  deriving DecidableEq, Repr

/-- One run of a builtin, with what it reads. A read of user memory that faults is `none`. -/
inductive Event
  | recvStash (tid : UInt32) (buf : UInt64)
  | begin (tid : UInt32) (ret : Int) (req : Option (List UInt8)) (hdrExt : List UInt8)
      (now : UInt64)
  | account (prev : UInt32) (state : Int) (next : UInt32) (stack : Int) (now : UInt64)
  | emit (tid : UInt32) (resp : Option (List UInt8)) (reserved : Bool) (task : Task)
      (timestamp now : UInt64)
  deriving DecidableEq, Repr

structure State where
  stash : ThreadMap UInt64
  win : ThreadMap Win
  records : List Record
  lost : Nat

def State.init : State := ⟨∅, ∅, [], 0⟩

/-! ### The builtins -/

def bytes (s : String) : List UInt8 := s.toList.map fun c => UInt8.ofNat c.toNat

/-- `spnl_is_http_req`. -/
def isHttpReq (h : List UInt8) : Bool :=
  (["GET ", "POST", "PUT ", "HEAD", "DELE", "OPTI", "PATC"].map bytes).contains (h.take 4)

/-- The window a `begin` event would store: the thread has a stashed buffer, the receive returned a
positive `int`, and what the buffer holds looks like a request. -/
def beginWin (s : State) (tid : UInt32) (ret : Int) (req : Option (List UInt8))
    (hdrExt : List UInt8) (now : UInt64) : Option Win := do
  let buf ← s.stash.lookup tid
  let req ← req
  if 0 < ret.bmod (2 ^ 32) ∧ buf ≠ 0 ∧ isHttpReq req then
    some ⟨now, 0, 0, -1, req, hdrExt⟩
  else none

def offcpuBegin (s : State) (tid : UInt32) (ret : Int) (req : Option (List UInt8))
    (hdrExt : List UInt8) (now : UInt64) : State :=
  { s with
    stash := s.stash.erase tid
    win := match beginWin s tid ret req hdrExt now with
      | some w => update s.win tid w
      | none => s.win }

/-- The thread leaves the CPU of its own accord. -/
def goOff (now : UInt64) (stack : Int) (w : Win) : Win :=
  { w with sleepTs := now, waitStack := stack }

/-- The thread comes back; a zero `sleepTs` says that it did not sleep. -/
def comeBack (now : UInt64) (w : Win) : Win :=
  if w.sleepTs ≠ 0 then
    { w with offcpuNs := w.offcpuNs + (now - w.sleepTs), sleepTs := 0 }
  else w

def offcpuAccount (s : State) (prev : UInt32) (state : Int) (next : UInt32) (stack : Int)
    (now : UInt64) : State :=
  let win := if state ≠ 0 then modify s.win prev (goOff now stack) else s.win
  { s with win := modify win next (comeBack now) }

/-- The record a window closes with. -/
def closing (w : Win) (resp : List UInt8) (task : Task) (timestamp now : UInt64) : Record where
  timestamp := timestamp
  task := task
  durationNs := now - w.startNs
  startKtime := w.startNs
  hdrExt := w.hdrExt
  offcpuNs := w.offcpuNs
  waitStack := w.waitStack
  req := w.req
  resp := resp

/-- The window an `emit` event closes, with the response it found. -/
def closed (s : State) (tid : UInt32) (resp : Option (List UInt8)) : Option (Win × List UInt8) := do
  let w ← s.win.lookup tid
  let resp ← resp
  if resp.take 4 = bytes "HTTP" then some (w, resp) else none

def offcpuEmit (s : State) (tid : UInt32) (resp : Option (List UInt8)) (reserved : Bool)
    (task : Task) (timestamp now : UInt64) : State :=
  match closed s tid resp with
  | none => s
  | some (w, resp) =>
      if reserved then
        { s with
          win := s.win.erase tid
          records := s.records ++ [closing w resp task timestamp now] }
      else { s with win := s.win.erase tid, lost := s.lost + 1 }

def step (s : State) : Event → State
  | .recvStash tid buf => { s with stash := update s.stash tid buf }
  | .begin tid ret req hdrExt now => offcpuBegin s tid ret req hdrExt now
  | .account prev state next stack now => offcpuAccount s prev state next stack now
  | .emit tid resp reserved task timestamp now => offcpuEmit s tid resp reserved task timestamp now

def run (es : List Event) : State := es.foldl step .init

theorem run_snoc (es : List Event) (e : Event) : run (es ++ [e]) = step (run es) e := by
  rw [run, run, List.foldl_append]
  rfl

/-! ### What an event stores and emits -/

/-- The thread whose window the event stores. -/
def stores (s : State) : Event → Option UInt32
  | .begin tid ret req hdrExt now =>
      if (beginWin s tid ret req hdrExt now).isSome ∧ HasRoom s.win tid then some tid else none
  | _ => none

/-- The thread and the record of an event that emits one. -/
def emits (s : State) : Event → Option (UInt32 × Record)
  | .emit tid resp reserved task timestamp now =>
      match closed s tid resp with
      | some (w, resp) =>
          if reserved then some (tid, closing w resp task timestamp now) else none
      | none => none
  | _ => none

/-- One more event adds at most the record it emits. -/
theorem records_run_snoc (es : List Event) (e : Event) :
    (run (es ++ [e])).records = (run es).records ++ ((emits (run es) e).map Prod.snd).toList := by
  rw [run_snoc]
  cases e with
  | recvStash tid buf => simp [step, emits]
  | begin tid ret req hdrExt now => simp [step, offcpuBegin, emits]
  | account prev state next stack now => simp [step, offcpuAccount, emits]
  | emit tid resp reserved task timestamp now =>
      simp only [step, offcpuEmit, emits]
      cases closed (run es) tid resp with
      | none => simp
      | some c =>
          cases reserved with
          | false => simp
          | true => simp

/-- What a switch does to a thread's window. -/
def switched (tid prev : UInt32) (state : Int) (next : UInt32) (stack : Int) (now : UInt64)
    (w : Win) : Win :=
  let w := if tid = prev ∧ state ≠ 0 then goOff now stack w else w
  if tid = next then comeBack now w else w

theorem lookup_account (s : State) (prev : UInt32) (state : Int) (next : UInt32) (stack : Int)
    (now : UInt64) (tid : UInt32) :
    (offcpuAccount s prev state next stack now).win.lookup tid =
      (s.win.lookup tid).map (switched tid prev state next stack now) := by
  have hprev : (if state ≠ 0 then modify s.win prev (goOff now stack) else s.win).lookup tid =
      (s.win.lookup tid).map fun w =>
        if tid = prev ∧ state ≠ 0 then goOff now stack w else w := by
    by_cases hstate : state = 0
    · simp [hstate]
    · rw [if_pos hstate, lookup_modify]
      by_cases htid : tid = prev
      · simp [htid, hstate]
      · simp [htid]
  show (modify _ next (comeBack now)).lookup tid = _
  rw [lookup_modify, hprev]
  by_cases hnext : tid = next
  · rw [if_pos hnext, Option.map_map]
    congr 1
    funext w
    rw [switched, if_pos hnext]
    rfl
  · rw [if_neg hnext]
    congr 1
    funext w
    rw [switched, if_neg hnext]

variable {s : State} {tid : UInt32} {now : UInt64} {w : Win}

/-- A `begin` event leaves the windows as they are, but for the one it stores. -/
theorem lookup_begin {ret : Int} {req : Option (List UInt8)} {hdrExt : List UInt8} {t : UInt32}
    (h : (offcpuBegin s tid ret req hdrExt now).win.lookup t = some w) :
    (stores s (.begin tid ret req hdrExt now) = some t ∧
        beginWin s tid ret req hdrExt now = some w) ∨
      (stores s (.begin tid ret req hdrExt now) ≠ some t ∧ s.win.lookup t = some w) := by
  simp only [offcpuBegin, stores] at h ⊢
  cases hbegin : beginWin s tid ret req hdrExt now with
  | none =>
      rw [hbegin] at h
      exact .inr ⟨by simp, h⟩
  | some w' =>
      rw [hbegin] at h
      simp only [update] at h
      by_cases hroom : HasRoom s.win tid
      · rw [if_pos hroom] at h
        by_cases ht : t = tid
        · subst ht
          rw [AList.lookup_insert] at h
          exact .inl ⟨if_pos ⟨rfl, hroom⟩, h⟩
        · rw [AList.lookup_insert_ne ht] at h
          refine .inr ⟨?_, h⟩
          rw [if_pos ⟨rfl, hroom⟩]
          exact fun heq => ht (Option.some.inj heq).symm
      · rw [if_neg hroom] at h
        exact .inr ⟨by simp [hroom], h⟩

/-- An `emit` event opens no window and changes none. -/
theorem lookup_emit {resp : Option (List UInt8)} {reserved : Bool} {task : Task}
    {timestamp : UInt64} {t : UInt32}
    (h : (offcpuEmit s tid resp reserved task timestamp now).win.lookup t = some w) :
    s.win.lookup t = some w := by
  have herase : (s.win.erase tid).lookup t = some w → s.win.lookup t = some w := by
    intro h
    by_cases ht : t = tid
    · rw [ht, AList.lookup_erase] at h
      nomatch h
    · rwa [AList.lookup_erase_ne ht] at h
  unfold offcpuEmit at h
  split at h
  · exact h
  · split at h
    · exact herase h
    · exact herase h

/-- A window is stored empty, at the time of the event. -/
theorem beginWin_eq_some {ret : Int} {req : Option (List UInt8)} {hdrExt : List UInt8}
    (h : beginWin s tid ret req hdrExt now = some w) :
    w.startNs = now ∧ w.offcpuNs = 0 ∧ w.sleepTs = 0 := by
  unfold beginWin at h
  obtain ⟨buf, -, h⟩ := Option.bind_eq_some_iff.mp h
  obtain ⟨req, -, h⟩ := Option.bind_eq_some_iff.mp h
  split at h
  · cases h
    exact ⟨rfl, rfl, rfl⟩
  · nomatch h

/-- What an event that emits closes: its own thread's window. -/
theorem emits_eq_some {e : Event} {r : Record} (h : emits s e = some (tid, r)) :
    ∃ w resp task timestamp now, e = .emit tid (some resp) true task timestamp now ∧
      s.win.lookup tid = some w ∧ r = closing w resp task timestamp now := by
  cases e with
  | recvStash t buf => nomatch h
  | begin t ret req hdrExt now => nomatch h
  | account prev state next stack now => nomatch h
  | emit t resp reserved task timestamp now =>
      simp only [emits] at h
      split at h
      · rename_i w resp' hclosed
        split at h
        · rename_i hreserved
          obtain ⟨w', hw', hclosed⟩ := Option.bind_eq_some_iff.mp hclosed
          obtain ⟨resp'', hresp, hhttp⟩ := Option.bind_eq_some_iff.mp hclosed
          split at hhttp
          · cases hhttp
            cases h
            rw [hresp, hreserved]
            exact ⟨w, resp', task, timestamp, now, rfl, hw', rfl⟩
          · nomatch hhttp
        · nomatch h
      · nomatch h

end SpinelEbpf.Offcpu
