import SpinelEbpf.Support.CString
import SpinelEbpf.Support.Json

/-!
# Otlp — the pod of a cgroup path

`spnl_k8s_parse_kubepods_path` finds the class, the pod and the container in the path of a cgroup.
The path is written in one of two forms, by directories (`kubepods/burstable/pod<uid>/<id>`) or by
systemd units (`…/kubepods-burstable-pod<uid>.slice/docker-<id>.scope`), and one scan reads both.

* A component is a class, has `pod` before a hex digit (but not the `pod` of `kubepods`), or names
  the container (`onComponent`, with a lemma for each).
* Each form is a list of components (`Form.components`), so the tokens of the path are these.

`kubepods_path_parsed`: from either form, after any text without `kubepods`, the scan gives back
what the path was written from.
-/

namespace SpinelEbpf.Otlp.Kubepods
open CString
open Json (Text ascii)

/-! ### The scan -/

/-- What the scan writes of `spnl_k8s_pod_t`. -/
structure SpnlK8sPod where
  podUid : Text
  containerId : Text
  qos : Text
  found : Bool
  deriving DecidableEq, Repr

/-- A digit, or a letter from `a` to `f`. -/
def hexish (c : UInt8) : Bool := (48 ≤ c && c ≤ 57) || (97 ≤ c && c ≤ 102)

/-- The component without `.slice` or `.scope` at its end. -/
def strip (comp : Text) : Text :=
  match strrchr 46 comp with
  | some (before, after) =>
      if after = ascii "slice" || after = ascii "scope" then before else comp
  | none => comp

theorem length_after_pod {sp before after : Text}
    (h : strstr (ascii "pod") sp = some (before, after)) : after.length < sp.length := by
  have hpod : (ascii "pod").length = 3 := rfl
  rw [eq_append_of_strstr h, List.length_append, List.length_append]
  omega

/-- The loop that looks for `pod` at the start or after a dash, before a hex digit: what follows it.
`seen` is what stands before `sp`. -/
def podp (seen sp : Text) : Option Text :=
  match h : strstr (ascii "pod") sp with
  | none => none
  | some (before, after) =>
      have := length_after_pod h
      if (seen ++ before = [] || (seen ++ before).getLast? = some 45) && after.head?.any hexish then
        some after
      else podp (seen ++ before ++ ascii "pod") after
termination_by sp.length

/-- The class of the component, if there was none before. -/
def embeddedQos (qos comp : Text) : Text :=
  if qos ≠ [] then qos
  else if (strstr (ascii "burstable") comp).isSome then snprintf 16 (ascii "burstable")
  else if (strstr (ascii "besteffort") comp).isSome then snprintf 16 (ascii "besteffort")
  else if (strstr (ascii "guaranteed") comp).isSome then snprintf 16 (ascii "guaranteed")
  else qos

/-- `'_'` is read as `'-'`. -/
def dash (c : UInt8) : UInt8 := if c = 95 then 45 else c

/-- The component after its last dash, if that is long enough. -/
def cid (comp : Text) : Text :=
  match strrchr 45 comp with
  | some (_, after) => if 32 ≤ after.length then after else comp
  | none => comp

/-- The body of the loop over the components, after the suffix is gone. -/
def onComponent (out : SpnlK8sPod) (comp : Text) : SpnlK8sPod :=
  if comp = ascii "besteffort" || comp = ascii "burstable" || comp = ascii "guaranteed" then
    { out with qos := snprintf 16 comp }
  else
    match podp [] comp with
    | some uid =>
        { out with
          qos := embeddedQos out.qos comp
          podUid := (snprintf 40 uid).map dash }
    | none =>
        if out.podUid ≠ [] && out.containerId = [] then
          { out with containerId := snprintf 68 (cid comp) }
        else out

def onToken (out : SpnlK8sPod) (tok : Text) : SpnlK8sPod :=
  onComponent out (strip (snprintf 512 tok))

/-- After `memset`. -/
def zeroed : SpnlK8sPod := ⟨[], [], [], false⟩

/-- `spnl_k8s_parse_kubepods_path`: what is in `out` afterwards, and the result.  A null pointer is
`none`. -/
def spnlK8sParseKubepodsPath (cgroupPath : Option Text) (out : Option SpnlK8sPod) :
    Option SpnlK8sPod × Bool :=
  match cgroupPath, out with
  | some path, some _ =>
      match strstr (ascii "kubepods") path with
      | none => (some zeroed, false)
      | some (_, after) =>
          let buf := snprintf 1024 (ascii "kubepods" ++ after)
          let pod := (strtok 47 buf).foldl onToken zeroed
          (some { pod with found := pod.podUid ≠ [] }, pod.podUid ≠ [])
  | _, _ => (out, false)

/-! ### The two forms of a path -/

/-- The classes that a path names. -/
inductive Qos where
  | burstable
  | besteffort
  deriving DecidableEq, Repr

def Qos.text : Qos → Text
  | burstable  => ascii "burstable"
  | besteffort => ascii "besteffort"

/-- A pod's identifier: hex digits and dashes, a digit first. -/
structure PodUid where
  text : Text
  length_le : text.length ≤ 36
  chars : ∀ c ∈ text, hexish c = true ∨ c = 45
  starts : text.head?.any hexish = true

/-- A container's identifier. -/
structure ContainerId where
  text : Text
  le_length : 32 ≤ text.length
  length_le : text.length ≤ 64
  chars : ∀ c ∈ text, hexish c = true

/-- What a path is written from. -/
structure Container where
  qos : Option Qos
  uid : PodUid
  id : ContainerId

/-- The class as the scan gives it, empty for none. -/
def Container.qosText (c : Container) : Text := c.qos.elim [] Qos.text

inductive Runtime where
  | criContainerd
  | docker
  deriving DecidableEq, Repr

def Runtime.text : Runtime → Text
  | criContainerd => ascii "cri-containerd"
  | docker        => ascii "docker"

inductive Form where
  | cgroupfs
  | systemd (runtime : Runtime)

/-- `'-'` is written as `'_'`. -/
def score (c : UInt8) : UInt8 := if c = 45 then 95 else c

/-- The identifier as systemd writes it. -/
def PodUid.escaped (uid : PodUid) : Text := uid.text.map score

/-- What follows `kubepods` in the unit of a class. -/
def unitTail (qos : Option Qos) : Text := qos.elim [] fun q => ascii "-" ++ q.text

/-- The unit of a class, without its suffix. -/
def unit (qos : Option Qos) : Text := ascii "kubepods" ++ unitTail qos

/-- The components of the path, from `kubepods` on. -/
def Form.components (c : Container) : Form → List Text
  | cgroupfs =>
      ascii "kubepods" :: (c.qos.toList.map Qos.text ++ [ascii "pod" ++ c.uid.text, c.id.text])
  | systemd runtime =>
      ascii "kubepods.slice" ::
        (c.qos.toList.map (fun q => unit (some q) ++ ascii ".slice") ++
          [unit c.qos ++ ascii "-pod" ++ c.uid.escaped ++ ascii ".slice",
            runtime.text ++ ascii "-" ++ c.id.text ++ ascii ".scope"])

/-- The path, from `kubepods` on. -/
def Form.path (form : Form) (c : Container) : Text := [47].intercalate (form.components c)

/-! ### Identifiers -/

variable {c : UInt8} {comp : Text} {out : SpnlK8sPod}

theorem ContainerId.not_mem (id : ContainerId) (hc : hexish c = false) :
    c ∉ id.text := by
  intro h
  rw [id.chars c h] at hc
  cases hc

theorem PodUid.not_mem (uid : PodUid) (hc : hexish c = false) (hdash : c ≠ 45) :
    c ∉ uid.text := by
  intro h
  rcases uid.chars c h with hhex | heq
  · rw [hhex] at hc
    cases hc
  · exact hdash heq

theorem PodUid.not_mem_escaped (uid : PodUid) (hc : hexish c = false) (hscore : c ≠ 95)
    (hdash : c ≠ 45) : c ∉ uid.escaped := by
  intro h
  obtain ⟨d, hd, heq⟩ := List.mem_map.mp h
  rw [score] at heq
  split at heq
  · exact hscore heq.symm
  · exact uid.not_mem hc hdash (heq ▸ hd)

theorem PodUid.starts_escaped (uid : PodUid) : uid.escaped.head?.any hexish = true := by
  have hstarts := uid.starts
  rw [escaped, List.head?_map]
  cases hhead : uid.text.head? with
  | none => rw [hhead] at hstarts; cases hstarts
  | some c =>
      rw [hhead] at hstarts
      have hdash : c ≠ 45 := by rintro rfl; cases hstarts
      rw [Option.map_some, score, if_neg hdash]
      exact hstarts

theorem PodUid.ne_nil (uid : PodUid) : uid.text ≠ [] := by
  intro h
  have hstarts := uid.starts
  rw [h] at hstarts
  cases hstarts

/-- The plain spelling is read as the identifier. -/
theorem PodUid.map_dash_text (uid : PodUid) : uid.text.map dash = uid.text := by
  calc uid.text.map dash
    _ = uid.text.map id := List.map_congr_left fun c hc => if_neg (by
          rintro rfl
          exact uid.not_mem rfl (by decide) hc)
    _ = uid.text := List.map_id _

/-- And so is the escaped one. -/
theorem PodUid.map_dash_escaped (uid : PodUid) : uid.escaped.map dash = uid.text := by
  have hback : ∀ c ∈ uid.text, dash (score c) = dash c := by
    intro c _
    rw [score]
    split
    next h => rw [h]; rfl
    · rfl
  calc uid.escaped.map dash
    _ = uid.text.map (dash ∘ score) := List.map_map
    _ = uid.text.map dash := List.map_congr_left hback
    _ = uid.text := uid.map_dash_text

/-! ### Suffixes -/

theorem strip_of_not_mem (h : 46 ∉ comp) : strip comp = comp := by
  rw [strip, strrchr_of_not_mem h]

theorem strip_slice (comp : Text) : strip (comp ++ ascii ".slice") = comp := by
  have hlast : strrchr 46 (comp ++ ascii ".slice") = some (comp, ascii "slice") :=
    strrchr_append comp (by decide)
  rw [strip, hlast]
  rfl

theorem strip_scope (comp : Text) : strip (comp ++ ascii ".scope") = comp := by
  have hlast : strrchr 46 (comp ++ ascii ".scope") = some (comp, ascii "scope") :=
    strrchr_append comp (by decide)
  rw [strip, hlast]
  rfl

/-! ### The search for a pod -/

theorem podp_of_not_mem {sp : Text} (seen : Text) (h : 112 ∉ sp) : podp seen sp = none := by
  have hnone : strstr (ascii "pod") sp = none := strstr_of_not_mem 112 (by decide) h
  rw [podp]
  split
  · rfl
  next heq => rw [hnone] at heq; cases heq

/-- The next `pod` after a text without `p`. -/
theorem podp_append (seen before after : Text) (h : 112 ∉ before) :
    podp seen (before ++ (ascii "pod" ++ after)) =
      if (seen ++ before = [] || (seen ++ before).getLast? = some 45) && after.head?.any hexish then
        some after
      else podp (seen ++ before ++ ascii "pod") after := by
  have hfirst : strstr (ascii "pod") (before ++ (ascii "pod" ++ after)) = some (before, after) :=
    strstr_append (by decide) fun hin => h (hin.subset (by decide))
  rw [podp]
  split
  next heq => rw [hfirst] at heq; cases heq
  next heq =>
    rw [hfirst] at heq
    obtain ⟨rfl, rfl⟩ := Prod.mk.inj (Option.some.inj heq)
    rfl

/-- The `pod` of `kubepods` is passed. -/
theorem podp_kubepods (rest : Text) :
    podp [] (ascii "kubepods" ++ rest) = podp (ascii "kubepod") (ascii "s" ++ rest) :=
  (podp_append [] (ascii "kube") (ascii "s" ++ rest) (by decide)).trans (if_neg Bool.false_ne_true)

theorem podp_unit (qos : Option Qos) : podp [] (unit qos) = none := by
  have hp : 112 ∉ ascii "s" ++ unitTail qos := by
    cases qos with
    | none => decide
    | some q => cases q <;> decide
  rw [unit, podp_kubepods]
  exact podp_of_not_mem _ hp

theorem podp_unit_pod (qos : Option Qos) {uid : Text} (hstarts : uid.head?.any hexish = true) :
    podp [] (unit qos ++ ascii "-pod" ++ uid) = some uid := by
  have hp : 112 ∉ ascii "s" ++ unitTail qos ++ [45] := by
    cases qos with
    | none => decide
    | some q => cases q <;> decide
  have hsplit : unit qos ++ ascii "-pod" ++ uid =
      ascii "kubepods" ++ (unitTail qos ++ ([45] ++ (ascii "pod" ++ uid))) := by
    rw [unit, List.append_assoc, List.append_assoc]
    rfl
  have hlast : ((ascii "kubepod" ++ (ascii "s" ++ unitTail qos ++ [45])).getLast?) = some 45 := by
    rw [← List.append_assoc, List.getLast?_concat]
  rw [hsplit, podp_kubepods, ← List.append_assoc, ← List.append_assoc, podp_append _ _ _ hp, hlast,
    hstarts]
  exact if_pos (by simp)

theorem podp_pod {uid : Text} (hstarts : uid.head?.any hexish = true) :
    podp [] (ascii "pod" ++ uid) = some uid := by
  have hat := podp_append [] [] uid List.not_mem_nil
  rw [hstarts] at hat
  exact hat

/-! ### The components, one by one -/

/-- The component is not the name of a class. -/
def NoQos (comp : Text) : Prop :=
  comp ≠ ascii "besteffort" ∧ comp ≠ ascii "burstable" ∧ comp ≠ ascii "guaranteed"

theorem noQos_of_mem (h : 112 ∈ comp) : NoQos comp := by
  refine ⟨?_, ?_, ?_⟩ <;>
  · rintro rfl
    revert h
    decide

theorem noQos_of_length (h : 10 < comp.length) : NoQos comp := by
  refine ⟨?_, ?_, ?_⟩ <;>
  · rintro rfl
    revert h
    decide

theorem onComponent_of_noQos (out : SpnlK8sPod) (h : NoQos comp) :
    onComponent out comp =
      match podp [] comp with
      | some uid =>
          { out with qos := embeddedQos out.qos comp, podUid := (snprintf 40 uid).map dash }
      | none =>
          if out.podUid ≠ [] && out.containerId = [] then
            { out with containerId := snprintf 68 (cid comp) }
          else out := by
  obtain ⟨h₁, h₂, h₃⟩ := h
  rw [onComponent, if_neg (by simp [h₁, h₂, h₃])]

theorem onToken_of_strip (out : SpnlK8sPod) {tok : Text} (hlength : tok.length < 512)
    (hstrip : strip tok = comp) : onToken out tok = onComponent out comp := by
  rw [onToken, snprintf_of_lt hlength, hstrip]

/-- A class. -/
theorem onToken_qos (out : SpnlK8sPod) (q : Qos) :
    onToken out q.text = { out with qos := q.text } := by
  cases q <;> rfl

/-- A component before the pod, neither a class nor a pod. -/
theorem onComponent_idle (qos : Option Qos) (hout : out.podUid = []) :
    onComponent out (unit qos) = out := by
  have hp : 112 ∈ unit qos := List.mem_append_left _ (by decide)
  rw [onComponent_of_noQos out (noQos_of_mem hp), podp_unit, hout]
  rfl

/-- The pod. -/
theorem onComponent_pod {spelled : Text} (uid : PodUid) (hp : 112 ∈ comp)
    (hpod : podp [] comp = some spelled) (hlength : spelled.length ≤ 36)
    (hspelled : spelled.map dash = uid.text) :
    onComponent out comp = { out with qos := embeddedQos out.qos comp, podUid := uid.text } := by
  rw [onComponent_of_noQos out (noQos_of_mem hp), hpod]
  dsimp only
  rw [snprintf_of_lt (by omega), hspelled]

/-- The container. -/
theorem onComponent_container (id : ContainerId) (hp : 112 ∉ comp) (hlength : 32 ≤ comp.length)
    (hcid : cid comp = id.text) (huid : out.podUid ≠ []) (hid : out.containerId = []) :
    onComponent out comp = { out with containerId := id.text } := by
  have hlt := id.length_le
  rw [onComponent_of_noQos out (noQos_of_length (by omega)), podp_of_not_mem [] hp]
  dsimp only
  rw [if_pos (by simp [huid, hid]), hcid, snprintf_of_lt (by omega)]

theorem cid_id (id : ContainerId) : cid id.text = id.text := by
  rw [cid, strrchr_of_not_mem (id.not_mem rfl)]

theorem cid_scope (runtime : Text) (id : ContainerId) :
    cid (runtime ++ ascii "-" ++ id.text) = id.text := by
  have hlast : strrchr 45 (runtime ++ ascii "-" ++ id.text) = some (runtime, id.text) := by
    rw [List.append_assoc]
    exact strrchr_append runtime (id.not_mem rfl)
  rw [cid, hlast]
  exact if_pos id.le_length

/-! ### Classes in a component -/

theorem embeddedQos_of_ne_nil {qos : Text} (comp : Text) (h : qos ≠ []) :
    embeddedQos qos comp = qos :=
  if_pos h

/-- Every class has an `r`. -/
theorem embeddedQos_of_not_mem (h : 114 ∉ comp) : embeddedQos [] comp = [] := by
  have hnone : ∀ needle : Text, 114 ∈ needle → (strstr needle comp).isSome = false := by
    intro needle hr
    rw [strstr_of_not_mem 114 hr h]
    rfl
  rw [embeddedQos, hnone _ (by decide), hnone _ (by decide), hnone _ (by decide)]
  rfl

theorem strstr_of_infix {needle : Text} (h : needle <:+: comp) :
    (strstr needle comp).isSome = true := by
  rw [Option.isSome_iff_ne_none]
  exact fun hnone => strstr_eq_none_iff.mp hnone h

theorem embeddedQos_burstable (h : ascii "burstable" <:+: comp) :
    embeddedQos [] comp = ascii "burstable" := by
  rw [embeddedQos, strstr_of_infix h]
  rfl

/-- Only `burstable` has an `l`. -/
theorem embeddedQos_besteffort (h : ascii "besteffort" <:+: comp) (hl : 108 ∉ comp) :
    embeddedQos [] comp = ascii "besteffort" := by
  rw [embeddedQos, strstr_of_not_mem 108 (by decide) hl, strstr_of_infix h]
  rfl

/-- The class in the unit of a pod. -/
theorem embeddedQos_unit (qos : Option Qos) (uid : PodUid) :
    embeddedQos [] (unit qos ++ ascii "-pod" ++ uid.escaped) = qos.elim [] Qos.text := by
  have hr := uid.not_mem_escaped (c := 114) rfl (by decide) (by decide)
  have hl := uid.not_mem_escaped (c := 108) rfl (by decide) (by decide)
  rcases qos with _ | _ | _
  · refine embeddedQos_of_not_mem ?_
    rw [List.mem_append, not_or]
    exact ⟨by decide, hr⟩
  · exact embeddedQos_burstable ⟨ascii "kubepods-", ascii "-pod" ++ uid.escaped, by
      simp [unit, unitTail, Qos.text, ascii]⟩
  · refine embeddedQos_besteffort ⟨ascii "kubepods-", ascii "-pod" ++ uid.escaped, by
      simp [unit, unitTail, Qos.text, ascii]⟩ ?_
    rw [List.mem_append, not_or]
    exact ⟨by decide, hl⟩

/-! ### The two forms -/

/-- What the scan has found, before the result is set. -/
def Container.scanned (c : Container) : SpnlK8sPod := ⟨c.uid.text, c.id.text, c.qosText, false⟩

/-- A component is not empty, has no slash, and is short. -/
structure Plain (tok : Text) : Prop where
  ne_nil : tok ≠ []
  noSlash : 47 ∉ tok
  length_le : tok.length ≤ 100

theorem PodUid.length_escaped (uid : PodUid) : uid.escaped.length ≤ 36 := by
  rw [escaped, List.length_map]
  exact uid.length_le

theorem plain_qos (q : Qos) : Plain q.text := by
  cases q <;> exact ⟨by decide, by decide, by decide⟩

theorem plain_unit (qos : Option Qos) : Plain (unit qos ++ ascii ".slice") := by
  rcases qos with _ | _ | _ <;> exact ⟨by decide, by decide, by decide⟩

/-- A text between two fixed ones. -/
theorem plain_between {pre text post : Text} (hpre : pre ≠ [] ∧ 47 ∉ pre ∧ pre.length ≤ 24)
    (hpost : 47 ∉ post ∧ post.length ≤ 6) (hslash : 47 ∉ text) (hlength : text.length ≤ 64) :
    Plain (pre ++ text ++ post) := by
  obtain ⟨hne, hpre, hprelen⟩ := hpre
  refine ⟨?_, ?_, ?_⟩
  · rw [List.append_assoc]
    exact List.append_ne_nil_of_left_ne_nil hne _
  · rw [List.mem_append, List.mem_append]
    rintro ((h | h) | h)
    · exact hpre h
    · exact hslash h
    · exact hpost.1 h
  · rw [List.length_append, List.length_append]
    omega

theorem plain_pod (uid : PodUid) : Plain (ascii "pod" ++ uid.text) := by
  have hlength := uid.length_le
  have h : Plain (ascii "pod" ++ uid.text ++ []) :=
    plain_between (by decide) (by decide) (uid.not_mem rfl (by decide)) (by omega)
  rwa [List.append_nil] at h

theorem plain_unit_pod (qos : Option Qos) (uid : PodUid) :
    Plain (unit qos ++ ascii "-pod" ++ uid.escaped ++ ascii ".slice") := by
  have hlength := uid.length_escaped
  refine plain_between ?_ (by decide) (uid.not_mem_escaped rfl (by decide) (by decide)) (by omega)
  rcases qos with _ | _ | _ <;> decide

theorem plain_id (id : ContainerId) : Plain id.text := by
  have hle := id.le_length
  have hlength := id.length_le
  refine ⟨?_, id.not_mem rfl, by omega⟩
  rintro h
  rw [h] at hle
  cases hle

theorem plain_scope (runtime : Runtime) (id : ContainerId) :
    Plain (runtime.text ++ ascii "-" ++ id.text ++ ascii ".scope") := by
  refine plain_between ?_ (by decide) (id.not_mem rfl) id.length_le
  cases runtime <;> decide

theorem components_plain (form : Form) (c : Container) : ∀ tok ∈ form.components c, Plain tok := by
  have hkubepods : Plain (ascii "kubepods") := ⟨by decide, by decide, by decide⟩
  cases form with
  | cgroupfs =>
      refine List.forall_mem_cons.mpr ⟨hkubepods, List.forall_mem_append.mpr ⟨?_, ?_⟩⟩
      · intro tok htok
        obtain ⟨q, -, rfl⟩ := List.mem_map.mp htok
        exact plain_qos q
      · exact List.forall_mem_cons.mpr
          ⟨plain_pod c.uid, List.forall_mem_singleton.mpr (plain_id c.id)⟩
  | systemd runtime =>
      refine List.forall_mem_cons.mpr ⟨plain_unit none, List.forall_mem_append.mpr ⟨?_, ?_⟩⟩
      · intro tok htok
        obtain ⟨q, -, rfl⟩ := List.mem_map.mp htok
        exact plain_unit (some q)
      · exact List.forall_mem_cons.mpr
          ⟨plain_unit_pod c.qos c.uid, List.forall_mem_singleton.mpr (plain_scope runtime c.id)⟩

theorem length_components_le (form : Form) (c : Container) : (form.components c).length ≤ 4 := by
  cases form <;> rcases c with ⟨_ | q, uid, id⟩ <;> simp [Form.components]

theorem length_path_lt (form : Form) (c : Container) : (form.path c).length < 1024 := by
  have hle : (form.path c).length ≤ (form.components c).length * (100 + 1) :=
    length_intercalate_le fun tok htok => (components_plain form c tok htok).length_le
  have hfour := length_components_le form c
  omega

/-- Every path begins with `kubepods`. -/
theorem path_starts (form : Form) (c : Container) :
    ∃ after, form.path c = ascii "kubepods" ++ after := by
  have hcons : ∀ (tok : Text) (toks : List Text), ∃ after,
      [47].intercalate (tok :: toks) = tok ++ after := by
    intro tok toks
    cases toks with
    | nil => exact ⟨[], by rw [List.intercalate_singleton, List.append_nil]⟩
    | cons tok' toks => exact ⟨_, by rw [List.intercalate_cons_cons, List.append_assoc]⟩
  cases form with
  | cgroupfs => exact hcons _ _
  | systemd runtime =>
      obtain ⟨after, h⟩ := hcons (ascii "kubepods.slice") _
      exact ⟨ascii ".slice" ++ after, h⟩

theorem Plain.lt {tok : Text} (h : Plain tok) : tok.length < 512 :=
  Nat.lt_of_le_of_lt h.length_le (by decide)

/-- The components in front of the pod change nothing. -/
theorem onToken_kubepods (hout : out.podUid = []) :
    onToken out (ascii "kubepods") = out := by
  rw [onToken_of_strip out (by decide) (strip_of_not_mem (by decide))]
  exact onComponent_idle none hout

theorem onToken_unit (qos : Option Qos) (hout : out.podUid = []) :
    onToken out (unit qos ++ ascii ".slice") = out := by
  rw [onToken_of_strip out (plain_unit qos).lt (strip_slice _)]
  exact onComponent_idle qos hout

theorem onToken_pod (out : SpnlK8sPod) (uid : PodUid) :
    onToken out (ascii "pod" ++ uid.text) =
      { out with podUid := uid.text } := by
  have hdot : 46 ∉ ascii "pod" ++ uid.text := by
    rw [List.mem_append, not_or]
    exact ⟨by decide, uid.not_mem rfl (by decide)⟩
  have hr : 114 ∉ ascii "pod" ++ uid.text := by
    rw [List.mem_append, not_or]
    exact ⟨by decide, uid.not_mem rfl (by decide)⟩
  have hqos : embeddedQos out.qos (ascii "pod" ++ uid.text) = out.qos := by
    by_cases h : out.qos = []
    · rw [h, embeddedQos_of_not_mem hr]
    · exact embeddedQos_of_ne_nil _ h
  rw [onToken_of_strip out (plain_pod uid).lt (strip_of_not_mem hdot),
    onComponent_pod uid (List.mem_append_left _ (by decide)) (podp_pod uid.starts) uid.length_le
      uid.map_dash_text, hqos]

theorem onToken_unit_pod (qos : Option Qos) (uid : PodUid) (hout : out.qos = []) :
    onToken out (unit qos ++ ascii "-pod" ++ uid.escaped ++ ascii ".slice") =
      { out with qos := qos.elim [] Qos.text, podUid := uid.text } := by
  have hp : 112 ∈ unit qos ++ ascii "-pod" ++ uid.escaped :=
    List.mem_append_left _ (List.mem_append_right _ (by decide))
  rw [onToken_of_strip out (plain_unit_pod qos uid).lt (strip_slice _),
    onComponent_pod uid hp (podp_unit_pod qos uid.starts_escaped) uid.length_escaped
      uid.map_dash_escaped, hout, embeddedQos_unit]

theorem onToken_id (id : ContainerId) (huid : out.podUid ≠ []) (hid : out.containerId = []) :
    onToken out id.text = { out with containerId := id.text } := by
  rw [onToken_of_strip out (plain_id id).lt (strip_of_not_mem (id.not_mem rfl))]
  exact onComponent_container id (id.not_mem rfl) id.le_length (cid_id id) huid hid

theorem onToken_scope (runtime : Runtime) (id : ContainerId) (huid : out.podUid ≠ [])
    (hid : out.containerId = []) :
    onToken out (runtime.text ++ ascii "-" ++ id.text ++ ascii ".scope") =
      { out with containerId := id.text } := by
  have hle := id.le_length
  have hp : 112 ∉ runtime.text ++ ascii "-" ++ id.text := by
    rw [List.mem_append, not_or]
    exact ⟨by cases runtime <;> decide, id.not_mem rfl⟩
  rw [onToken_of_strip out (plain_scope runtime id).lt (strip_scope _)]
  refine onComponent_container id hp ?_ (cid_scope runtime.text id) huid hid
  rw [List.length_append]
  omega

/-- **The directories.** -/
theorem scan_cgroupfs (c : Container) :
    (Form.cgroupfs.components c).foldl onToken zeroed = c.scanned := by
  have huid := c.uid.ne_nil
  rcases c with ⟨_ | q, uid, id⟩
  · calc (Form.cgroupfs.components ⟨none, uid, id⟩).foldl onToken zeroed
      _ = onToken (onToken (onToken zeroed (ascii "kubepods")) (ascii "pod" ++ uid.text))
            id.text := rfl
      _ = { zeroed with podUid := uid.text, containerId := id.text } := by
          rw [onToken_kubepods rfl, onToken_pod, onToken_id id huid rfl]
  · calc (Form.cgroupfs.components ⟨some q, uid, id⟩).foldl onToken zeroed
      _ = onToken (onToken (onToken (onToken zeroed (ascii "kubepods")) q.text)
            (ascii "pod" ++ uid.text)) id.text := rfl
      _ = { zeroed with qos := q.text, podUid := uid.text, containerId := id.text } := by
          rw [onToken_kubepods rfl, onToken_qos, onToken_pod, onToken_id id huid rfl]

/-- **The units.** -/
theorem scan_systemd (runtime : Runtime) (c : Container) :
    ((Form.systemd runtime).components c).foldl onToken zeroed = c.scanned := by
  have huid := c.uid.ne_nil
  have hfront : ((ascii "kubepods.slice" :: c.qos.toList.map fun q =>
      unit (some q) ++ ascii ".slice").foldl onToken zeroed) = zeroed := by
    rw [List.foldl_cons, show ascii "kubepods.slice" = unit none ++ ascii ".slice" from rfl,
      onToken_unit none rfl]
    cases c.qos with
    | none => rfl
    | some q => exact onToken_unit (some q) rfl
  rw [Form.components, ← List.cons_append, List.foldl_append, hfront, List.foldl_cons,
    onToken_unit_pod c.qos c.uid rfl, List.foldl_cons, onToken_scope runtime c.id huid rfl]
  rfl

/-- The scan of either form. -/
theorem scan_components (form : Form) (c : Container) :
    (form.components c).foldl onToken zeroed = c.scanned := by
  cases form with
  | cgroupfs => exact scan_cgroupfs c
  | systemd runtime => exact scan_systemd runtime c

/-- **Both forms are read back.**  After any text without `kubepods`, the path gives the class, the
pod and the container it was written from. -/
theorem kubepods_path_parsed (pre : Text) (form : Form) (c : Container) (out : SpnlK8sPod)
    (hpre : ¬ ascii "kubepods" <:+: pre) :
    spnlK8sParseKubepodsPath (some (pre ++ form.path c)) (some out) =
      (some ⟨c.uid.text, c.id.text, c.qosText, true⟩, true) := by
  obtain ⟨after, hafter⟩ := path_starts form c
  have hfirst : strstr (ascii "kubepods") (pre ++ form.path c) = some (pre, after) := by
    rw [hafter]
    exact strstr_append (by decide) hpre
  have htoks : strtok 47 (snprintf 1024 (ascii "kubepods" ++ after)) = form.components c := by
    rw [← hafter, snprintf_of_lt (length_path_lt form c)]
    refine strtok_intercalate ?_ fun tok htok => ?_
    · cases form <;> exact List.cons_ne_nil _ _
    · have hplain := components_plain form c tok htok
      exact ⟨hplain.ne_nil, hplain.noSlash⟩
  rw [spnlK8sParseKubepodsPath]
  dsimp only
  rw [hfirst]
  dsimp only
  rw [htoks, scan_components]
  simp [Container.scanned, c.uid.ne_nil]

/-- A container of a burstable pod, with the shortest identifiers. -/
def shortContainer : Container where
  qos := some .burstable
  uid := ⟨ascii "7", by decide, List.forall_mem_singleton.mpr (.inl rfl), rfl⟩
  id := ⟨List.replicate 32 48, List.length_replicate.ge, by rw [List.length_replicate]; decide,
    fun _ hc => List.eq_of_mem_replicate hc ▸ rfl⟩

theorem kubepods_path_parsed_short :
    ¬ ascii "kubepods" <:+: ascii "/sys/fs/cgroup/" ∧
      spnlK8sParseKubepodsPath
          (some (ascii "/sys/fs/cgroup/" ++ (Form.systemd .docker).path shortContainer))
          (some zeroed) =
        (some ⟨ascii "7", List.replicate 32 48, ascii "burstable", true⟩, true) :=
  have hpre : ¬ ascii "kubepods" <:+: ascii "/sys/fs/cgroup/" := by decide
  ⟨hpre, kubepods_path_parsed _ (.systemd .docker) shortContainer zeroed hpre⟩

end SpinelEbpf.Otlp.Kubepods
