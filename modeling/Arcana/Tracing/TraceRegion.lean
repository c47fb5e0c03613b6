import Arcana.Foundations.Partition
import Arcana.Foundations.SharedOwnership
import Arcana.Foundations.Transition
import Arcana.Foundations.Unicode

/-!
# Trace regions

A `trace_region` that is constructed while tracing is enabled writes a START event and is active: it
has a cookie other than 0 and a handle to the registration of the provider. It writes the STOP event
when it is destroyed or assigned to, unless it was moved from before. An operation is told by what
it does to the active regions (`Effect`): most leave them as they are up to their order, one opens a
region and two close one. So in every run a region that wrote its START is held by exactly one
object, or has written exactly one STOP, with the same cookie (`Told.answered`).

An object is never destroyed twice, nor used after that; in a run that would do so there is no next
state.

* `TraceState.enable`, `TraceState.disable`, `TraceState.construct` and `TraceState.writeStop` are
  the functions of the source, and `TraceState.step` is an operation of a program.
* `TraceState.Effect` are the kinds of operations, and `TraceState.step_effect` says that there are
  no others.
* `TraceState.Answered` is what has become of one region, and `TraceState.Told` the invariant.
* `TraceState.Told.of_reach` is the result about runs.
-/

namespace Arcana.Tracing

open Foundations

/-- `trace_level`. -/
inductive TraceLevel
  | mark
  | log
  deriving DecidableEq

/-- `GUID`. -/
structure Guid where
  data1 : BitVec 32
  data2 : BitVec 16
  data3 : BitVec 16
  data4 : List (BitVec 8)
  deriving DecidableEq

/-- `cookieToGuid`. -/
def cookieToGuid (cookie : BitVec 32) : Guid where
  data1 := cookie
  data2 := 0x1E3A
  data3 := 0x4B5C
  data4 := [0xA7, 0xD0, 0x6F, 0x2E, 0x9C, 0x8B, 0x3D, 0x14]

/-- `trace_region`: a region that is not active has no handle. Registrations are numbered in the
order in which they are made, and `origin` is the number of the object that was constructed, from
which the region was moved to this one; it is a history. The name is its bytes. -/
structure TraceRegion where
  cookie : BitVec 32
  name : List UInt8
  activityId : Guid
  registration : Option ℕ
  origin : ℕ
  inactive : cookie = 0#32 → registration = none
  deriving DecidableEq

/-- The `EVENT_TRACE_TYPE` of an event. -/
inductive Opcode
  | start
  | stop
  deriving DecidableEq

/-- What is passed to `TraceLoggingWriteActivity`, the region, and whether the provider was
registered. -/
structure TraceEvent where
  opcode : Opcode
  activityId : Guid
  name : List UInt8
  cookie : BitVec 32
  origin : ℕ
  registered : Bool
  deriving DecidableEq

/-- The provider, the static members, the use counts of the registrations, and the objects in the
order in which they were made, nothing when they were destroyed. The events and the lines that were
written to the debugger are histories. -/
structure TraceState where
  registered : Bool := false
  enabled : Bool := false
  logEnabled : Bool := false
  nextCookie : BitVec 32 := 1
  registration : Option ℕ := none
  useCounts : List ℕ := []
  regions : List (Option TraceRegion) := []
  log : List TraceEvent := []
  output : List (List UInt8) := []

/-- What a program does. Objects are named by their numbers. -/
inductive TraceAction
  | enable (level : TraceLevel)
  | disable
  | construct (name : List UInt8)
  | moveConstruct (other : ℕ)
  | moveAssign (region other : ℕ)
  | destroy (region : ℕ)

namespace TraceRegion

/-- What is left of a region that was moved from. Nothing reads its name any more. -/
def movedFrom (r : TraceRegion) : TraceRegion :=
  { r with cookie := 0#32, name := [], registration := none, inactive := fun _ => rfl }

/-- An event of a region. -/
def event (r : TraceRegion) (opcode : Opcode) (registered : Bool) : TraceEvent :=
  { opcode, activityId := r.activityId, name := r.name, cookie := r.cookie, origin := r.origin,
    registered }

/-- `snprintf` to the buffer of 256 bytes, with the name or without it. -/
def line (r : TraceRegion) (format : String) (name : List UInt8) : List UInt8 :=
  let cookie := " (cookie=" ++ toString r.cookie.toInt ++ ")\n"
  (utf8Encode format.toList ++ name ++ utf8Encode cookie.toList).take 255

/-- `[trace_region] BEGIN %s (cookie=%d)`. -/
def beginLine (r : TraceRegion) : List UInt8 := r.line "[trace_region] BEGIN " r.name

/-- `[trace_region] END (cookie=%d)`. -/
def endLine (r : TraceRegion) : List UInt8 := r.line "[trace_region] END" []

/-- `[trace_region] END (move) (cookie=%d)`. -/
def endMoveLine (r : TraceRegion) : List UInt8 := r.line "[trace_region] END (move)" []

end TraceRegion

namespace TraceState

/-- The event of a region is written, and the line if `s_logEnabled`. -/
def write (s : TraceState) (r : TraceRegion) (opcode : Opcode) (line : List UInt8) : TraceState :=
  { s with
    log := s.log ++ [r.event opcode s.registered]
    output := if s.logEnabled then s.output ++ [line] else s.output }

/-- A handle is released. The last one takes `~ProviderRegistration` along, which unregisters the
provider. -/
def release (s : TraceState) (handle : Option ℕ) : TraceState :=
  { s with
    useCounts := (releaseShared s.useCounts handle).1
    registered := s.registered && !(releaseShared s.useCounts handle).2 }

/-- `enable`. -/
def enable (s : TraceState) (level : TraceLevel) : TraceState :=
  if s.enabled then s
  else
    let made := makeShared s.useCounts
    let assigned := { s with registered := true, registration := some made.2, useCounts := made.1 }
    { assigned.release s.registration with enabled := true, logEnabled := level = .log }

/-- `disable`. -/
def disable (s : TraceState) : TraceState :=
  if !s.enabled then s
  else { s with enabled := false, logEnabled := false, registration := none }.release s.registration

/-- The object that `trace_region(const char*)` makes. -/
def newRegion (s : TraceState) (name : List UInt8) : TraceRegion :=
  let cookie := if s.enabled then s.nextCookie else 0#32
  { cookie
    name := if cookie = 0#32 then [] else name
    activityId := cookieToGuid cookie
    registration := if cookie = 0#32 then none else s.registration
    origin := s.regions.length
    inactive := fun h => if_pos h }

/-- `trace_region(const char*)`. -/
def construct (s : TraceState) (name : List UInt8) : TraceState :=
  let r := s.newRegion name
  let s :=
    { s with
      nextCookie := if s.enabled then s.nextCookie + 1 else s.nextCookie
      useCounts := copyShared s.useCounts r.registration
      regions := s.regions ++ [some r] }
  if r.cookie = 0#32 then s else s.write r .start r.beginLine

/-- The STOP event of an active region. -/
def writeStop (s : TraceState) (r : TraceRegion) (line : List UInt8) : TraceState :=
  if r.cookie = 0#32 then s else s.write r .stop line

/-- One operation. -/
def step (s : TraceState) : TraceAction → Option TraceState
  | .enable level => some (s.enable level)
  | .disable => some s.disable
  | .construct name => some (s.construct name)
  | .moveConstruct j =>
    match s.regions[j]? with
    | some (some other) =>
      some { s with regions := s.regions.set j (some other.movedFrom) ++ [some other] }
    | _ => none
  | .moveAssign i j =>
    match s.regions[i]?, s.regions[j]? with
    | some (some r), some (some other) =>
      if i = j then some s
      else
        let regions := (s.regions.set i (some other)).set j (some other.movedFrom)
        some ({ s.writeStop r r.endMoveLine with regions }.release r.registration)
    | _, _ => none
  | .destroy i =>
    match s.regions[i]? with
    | some (some r) =>
      some ({ s.writeStop r r.endLine with regions := s.regions.set i none }.release r.registration)
    | _ => none

/-! ## What an operation does -/

/-- The object, if it is an active region. -/
def asActive (object : Option TraceRegion) : Option TraceRegion :=
  object.filter fun r => r.cookie ≠ 0#32

/-- The active ones of some objects. -/
def activeRegions (regions : List (Option TraceRegion)) : List TraceRegion :=
  regions.filterMap asActive

/-- The active regions. -/
def active (s : TraceState) : List TraceRegion := activeRegions s.regions

/-- The handle that an operation lets go of. -/
def released (s : TraceState) : TraceAction → Option ℕ
  | .disable => if s.enabled then s.registration else none
  | .moveAssign i j => if i = j then none else s.regions[i]?.join.bind TraceRegion.registration
  | .destroy i => s.regions[i]?.join.bind TraceRegion.registration
  | _ => none

/-- The kinds of operations. -/
inductive Effect (s : TraceState) : TraceAction → TraceState → Prop
  | quiet {action : TraceAction} {nextCookie : BitVec 32} {regions : List (Option TraceRegion)}
      (released : s.released action = none) (active : (activeRegions regions).Perm s.active)
      (grows : s.regions.length ≤ regions.length) : Effect s action { s with nextCookie, regions }
  | enabled {level : TraceLevel} {logEnabled : Bool} (off : s.enabled = false) :
      Effect s (.enable level)
        ({ s with
            registered := true
            enabled := true
            logEnabled
            registration := some (makeShared s.useCounts).2
            useCounts := (makeShared s.useCounts).1 }.release s.registration)
  | disabled (on : s.enabled = true) :
      Effect s .disable
        ({ s with enabled := false, logEnabled := false, registration := none }.release
          s.registration)
  | opened {name line : List UInt8} {nextCookie : BitVec 32} {r : TraceRegion}
      (on : s.enabled = true) (cookie : r.cookie ≠ 0#32)
      (handle : r.registration = s.registration) (origin : r.origin = s.regions.length) :
      Effect s (.construct name)
        ({ s with
            nextCookie
            useCounts := copyShared s.useCounts s.registration
            regions := s.regions ++ [some r] }.write r .start line)
  | closed {action : TraceAction} {r : TraceRegion} {line : List UInt8}
      {regions : List (Option TraceRegion)} (released : s.released action = r.registration)
      (cookie : r.cookie ≠ 0#32) (active : s.active.Perm (r :: activeRegions regions))
      (grows : s.regions.length ≤ regions.length) :
      Effect s action ({ s.write r .stop line with regions }.release r.registration)

variable {s s' : TraceState} {action : TraceAction} {r other : TraceRegion} {i j : ℕ}
  {regions : List (Option TraceRegion)}

@[simp] theorem asActive_none : asActive none = none := rfl

@[simp] theorem asActive_movedFrom : asActive (some r.movedFrom) = none := rfl

theorem asActive_of_ne (h : r.cookie ≠ 0#32) : asActive (some r) = some r := by
  simp [asActive, Option.filter_some, h]

theorem asActive_of_eq (h : r.cookie = 0#32) : asActive (some r) = none := by
  simp [asActive, Option.filter_some, h]

theorem mem_activeRegions : r ∈ activeRegions regions ↔ some r ∈ regions ∧ r.cookie ≠ 0#32 := by
  simp [activeRegions, asActive, Option.filter_eq_some_iff]

theorem activeRegions_concat (object : Option TraceRegion) :
    activeRegions (regions ++ [object]) = activeRegions regions ++ (asActive object).toList := by
  rw [activeRegions, List.filterMap_append]
  cases h : asActive object with
  | none => simp [activeRegions, h]
  | some r => simp [activeRegions, h]

@[simp] theorem release_none : s.release none = s := by
  simp [release, releaseShared]

/-- A region that is moved is still active, at another place. -/
theorem activeRegions_moveConstruct (h : s.regions[j]? = some (some other)) :
    (activeRegions (s.regions.set j (some other.movedFrom) ++ [some other])).Perm s.active := by
  rw [activeRegions_concat]
  exact List.perm_append_comm.trans (perm_filterMap_set asActive h (some other.movedFrom))

/-- The region that was there is not. -/
theorem activeRegions_moveAssign (hi : s.regions[i]? = some (some r))
    (hj : s.regions[j]? = some (some other))
    (hne : i ≠ j) : s.active.Perm ((asActive (some r)).toList ++
      activeRegions ((s.regions.set i (some other)).set j (some other.movedFrom))) := by
  have hj' : (s.regions.set i (some other))[j]? = some (some other) := by
    rw [List.getElem?_set_ne hne, hj]
  have hset := perm_filterMap_set asActive hi (some other)
  have hset' := perm_filterMap_set asActive hj' (some other.movedFrom)
  apply (List.perm_append_left_iff (asActive (some other)).toList).1
  refine hset.symm.trans ((hset'.symm.append_left _).trans ?_)
  rw [← List.append_assoc, ← List.append_assoc]
  exact List.perm_append_comm.append_right _

theorem activeRegions_destroy (h : s.regions[i]? = some (some r)) :
    s.active.Perm ((asActive (some r)).toList ++ activeRegions (s.regions.set i none)) :=
  (perm_filterMap_set asActive h none).symm

/-- An object is not a region any more: this closes the region if it is active. -/
theorem effect_of_end {line : List UInt8} (hreleased : s.released action = r.registration)
    (hactive : s.active.Perm ((asActive (some r)).toList ++ activeRegions regions))
    (hgrows : s.regions.length ≤ regions.length) :
    s.Effect action ({ s.writeStop r line with regions }.release r.registration) := by
  by_cases hr : r.cookie = 0#32
  · have hnone := r.inactive hr
    rw [asActive_of_eq hr] at hactive
    rw [hnone, release_none, writeStop, if_pos hr]
    exact .quiet (hreleased.trans hnone) hactive.symm hgrows
  · rw [asActive_of_ne hr] at hactive
    rw [writeStop, if_neg hr]
    exact .closed hreleased hr hactive hgrows

/-- **What an operation can do.** -/
theorem step_effect (h : s.step action = some s') : s.Effect action s' := by
  cases action with
  | enable level =>
    obtain rfl : s.enable level = s' := Option.some.inj h
    cases hon : s.enabled with
    | true =>
      rw [enable, if_pos hon]
      exact .quiet rfl (.refl _) le_rfl
    | false =>
      rw [enable, if_neg (by simp [hon])]
      exact .enabled hon
  | disable =>
    obtain rfl : s.disable = s' := Option.some.inj h
    cases hon : s.enabled with
    | true =>
      rw [disable, if_neg (by simp [hon])]
      exact .disabled hon
    | false =>
      rw [disable, if_pos (by simp [hon])]
      exact .quiet (by simp [released, hon]) (.refl _) le_rfl
  | construct name =>
    obtain rfl : s.construct name = s' := Option.some.inj h
    by_cases hcookie : (s.newRegion name).cookie = 0#32
    · have hnone := (s.newRegion name).inactive hcookie
      rw [construct, if_pos hcookie, hnone]
      refine .quiet rfl ?_ (by simp)
      rw [activeRegions_concat, asActive_of_eq hcookie]
      simp [active]
    · cases hon : s.enabled with
      | true =>
        have hhandle : (s.newRegion name).registration = s.registration := if_neg hcookie
        rw [construct, if_neg hcookie, hhandle]
        exact .opened hon hcookie hhandle rfl
      | false => simp [newRegion, hon] at hcookie
  | moveConstruct j =>
    rw [step] at h
    split at h
    · rename_i other hj
      obtain rfl := Option.some.inj h
      exact .quiet rfl (activeRegions_moveConstruct hj) (by simp)
    · cases h
  | moveAssign i j =>
    rw [step] at h
    split at h
    · rename_i r other hi hj
      split_ifs at h with hij
      · obtain rfl := Option.some.inj h
        exact .quiet (if_pos hij) (.refl _) le_rfl
      · obtain rfl := Option.some.inj h
        exact effect_of_end (by simp [released, hij, hi]) (activeRegions_moveAssign hi hj hij)
          (by simp)
    · cases h
  | destroy i =>
    rw [step] at h
    split at h
    · rename_i r hi
      obtain rfl := Option.some.inj h
      exact effect_of_end (by simp [released, hi]) (activeRegions_destroy hi) (by simp)
    · cases h

/-! ## Every START has its STOP -/

/-- The events of a region, which is named by the number of the object that was constructed. -/
def events (s : TraceState) (n : ℕ) : List TraceEvent := s.log.filter fun e => e.origin = n

/-- The objects that hold it. -/
def holders (s : TraceState) (n : ℕ) : List TraceRegion := s.active.filter fun r => r.origin = n

/-- A region has written nothing, or it wrote its START and is held by one object, or it wrote its
STOP as well, with the same name, cookie and activity, and is held by none. -/
inductive Answered (s : TraceState) (n : ℕ) : Prop
  | silent (holders : s.holders n = []) (events : s.events n = [])
  | started {r : TraceRegion} {a : Bool} (holders : s.holders n = [r])
      (events : s.events n = [r.event .start a])
  | stopped {r : TraceRegion} {a b : Bool} (holders : s.holders n = [])
      (events : s.events n = [r.event .start a, r.event .stop b])

/-- What holds between the operations. -/
structure Told (s : TraceState) : Prop where
  active : ∀ r ∈ s.active, r.origin < s.regions.length
  log : ∀ e ∈ s.log, e.origin < s.regions.length
  answered : ∀ n, s.Answered n

theorem Answered.congr {n : ℕ} (h : s.Answered n) (hholders : (s.holders n).Perm (s'.holders n))
    (hevents : s'.events n = s.events n) : s'.Answered n := by
  cases h with
  | silent holders events =>
    exact .silent (List.nil_perm.1 (holders ▸ hholders)) (hevents.trans events)
  | started holders events =>
    exact .started (List.singleton_perm.1 (holders ▸ hholders)).symm (hevents.trans events)
  | stopped holders events =>
    exact .stopped (List.nil_perm.1 (holders ▸ hholders)) (hevents.trans events)

theorem events_concat {opcode : Opcode} {a : Bool} (h : s'.log = s.log ++ [r.event opcode a])
    (n : ℕ) :
    s'.events n = s.events n ++ if r.origin = n then [r.event opcode a] else [] := by
  rw [events, h, List.filter_append, events]
  by_cases hn : r.origin = n
  · simp [TraceRegion.event, hn]
  · simp [TraceRegion.event, hn]

theorem holders_of_perm (h : s.active.Perm (r :: s'.active)) (n : ℕ) :
    (s.holders n).Perm (if r.origin = n then r :: s'.holders n else s'.holders n) := by
  have hfilter := h.filter fun r => decide (r.origin = n)
  rw [List.filter_cons] at hfilter
  by_cases hn : r.origin = n
  · simpa [holders, hn] using hfilter
  · simpa [holders, hn] using hfilter

namespace Told

theorem initial : ({} : TraceState).Told where
  active := nofun
  log := nofun
  answered := fun _ => .silent rfl rfl

/-- Nothing is opened or closed. -/
theorem congr (h : s.Told) (hactive : s'.active.Perm s.active) (hlog : s'.log = s.log)
    (hgrows : s.regions.length ≤ s'.regions.length) : s'.Told where
  active := fun r hr => (h.active r (hactive.subset hr)).trans_le hgrows
  log := fun e he => (h.log e (hlog ▸ he)).trans_le hgrows
  answered := fun n => (h.answered n).congr (hactive.symm.filter _) (congrArg _ hlog)

/-- The region of a new object is opened. -/
theorem opened {a : Bool} (h : s.Told) (horigin : r.origin = s.regions.length)
    (hactive : s'.active.Perm (r :: s.active)) (hlog : s'.log = s.log ++ [r.event .start a])
    (hgrows : s.regions.length < s'.regions.length) : s'.Told where
  active := fun x hx => by
    rcases List.mem_cons.1 (hactive.subset hx) with rfl | hx
    · exact horigin ▸ hgrows
    · exact (h.active x hx).trans hgrows
  log := fun e he => by
    rw [hlog, List.mem_append, List.mem_singleton] at he
    rcases he with he | rfl
    · exact (h.log e he).trans hgrows
    · exact horigin.trans_lt hgrows
  answered := fun n => by
    have hholders := holders_of_perm hactive n
    have hevents := events_concat hlog n
    by_cases hn : r.origin = n
    · -- nothing was told of it before
      have hnone : s.holders n = [] := by
        refine List.filter_eq_nil_iff.2 fun x hx => ?_
        have hlt := h.active x hx
        simp only [decide_eq_true_eq]
        omega
      have hsilent : s.events n = [] := by
        refine List.filter_eq_nil_iff.2 fun e he => ?_
        have hlt := h.log e he
        simp only [decide_eq_true_eq]
        omega
      rw [if_pos hn, hnone] at hholders
      rw [if_pos hn, hsilent] at hevents
      exact .started (List.perm_singleton.1 hholders) hevents
    · rw [if_neg hn] at hholders
      rw [if_neg hn, List.append_nil] at hevents
      exact (h.answered n).congr hholders.symm hevents

/-- An active region is closed. -/
theorem closed {a : Bool} (h : s.Told) (hactive : s.active.Perm (r :: s'.active))
    (hlog : s'.log = s.log ++ [r.event .stop a]) (hgrows : s.regions.length ≤ s'.regions.length) :
    s'.Told where
  active := fun x hx => (h.active x (hactive.symm.subset (.tail _ hx))).trans_le hgrows
  log := fun e he => by
    rw [hlog, List.mem_append, List.mem_singleton] at he
    rcases he with he | rfl
    · exact (h.log e he).trans_le hgrows
    · exact (h.active r (hactive.symm.subset (.head _))).trans_le hgrows
  answered := fun n => by
    have hholders := holders_of_perm hactive n
    have hevents := events_concat hlog n
    by_cases hn : r.origin = n
    · -- it is the only one that holds the region
      rw [if_pos hn] at hholders hevents
      cases h.answered n with
      | silent holders _ => cases List.nil_perm.1 (holders ▸ hholders)
      | started holders events =>
        obtain ⟨rfl, hnone⟩ := List.cons.inj (List.singleton_perm.1 (holders ▸ hholders)).symm
        rw [events] at hevents
        exact .stopped hnone hevents
      | stopped holders _ => cases List.nil_perm.1 (holders ▸ hholders)
    · rw [if_neg hn] at hholders
      rw [if_neg hn, List.append_nil] at hevents
      exact (h.answered n).congr hholders hevents

theorem step (h : s.Told) (hstep : s.step action = some s') : s'.Told := by
  cases step_effect hstep with
  | quiet _ active grows => exact h.congr active rfl grows
  | enabled => exact h.congr (.refl _) rfl le_rfl
  | disabled => exact h.congr (.refl _) rfl le_rfl
  | opened _ cookie _ origin =>
    refine h.opened origin ?_ rfl (by simp [write])
    change (activeRegions (s.regions ++ [_])).Perm _
    rw [activeRegions_concat, asActive_of_ne cookie]
    exact List.perm_append_comm
  | closed _ _ active grows => exact h.closed active rfl grows

/-- **In every run each region that wrote its START writes exactly one STOP.** -/
theorem of_reach (h : Reach TraceState.step anyStep {} s) : s.Told :=
  h.invariant initial fun _ _ _ ha _ hstep => ha.step hstep

end Told

end TraceState

end Arcana.Tracing
