import Arcana.Threading.Dispatcher

/-!
# The loops of `internal_tick`

The works that a tick drains stay in `m_workload` until its loop is over, and the loop goes over
`m_workload` by iterators. When a work throws, the loop is left and the works stay; when a work
calls `tick`, a second loop is on the stack above the first one. A later drain appends to what is
there and its loop begins at the front.

The loops that are on the stack are explicit here, each with the version of `m_workload` that its
iterators are for. As long as nothing is drained into a workload that is not empty, and no work is
left behind by an exception, a dispatcher does what the one without exceptions and without nested
ticks does (`TickState.Tidy`), and nothing is invoked twice. A drain into a workload that is not
empty invokes a work a second time (`TickState.Tidy.invokes_again`).

* `TickState.step` is a step of a dispatcher with any number of loops on its stack.
* `TickState.Clean` and `TickState.Calm` are the conditions on a step, for works that throw and for
  works that call `tick`.
* `TickState.Tidy` is the invariant, with the dispatcher of the other module as its
  `TickState.view`; `Tidy.tick`, `Tidy.next`, `Tidy.ret` and `Tidy.throw` say that the steps keep
  it.
* `Tidy.invokes_again` says what becomes of a drain that is not `Clean`.
* `survives_throw` and `survives_nested_tick` are the results about runs, each with a run that shows
  what happens otherwise.
-/

namespace Arcana.Threading

open Foundations

variable {W : Type*}

/-- The loop of a call of `internal_tick`: the position of the next work, the end, the version of
`m_workload` that they are for, and whether a work is running. -/
structure TickLoop where
  pos : ℕ
  stop : ℕ
  version : ℕ
  running : Bool

/-- A dispatcher with the loops of its ticks, the innermost one first. The works in the order in
which they were pushed, the places of those that were cleared, and the works that were drained and
that were invoked are histories. -/
structure TickState (W : Type*) where
  work : List (ℕ × W) := []
  workload : List (ℕ × W) := []
  version : ℕ := 0
  loops : List TickLoop := []
  pushed : List (ℕ × W) := []
  cleared : List ℕ := []
  drained : List (ℕ × W) := []
  invoked : List (ℕ × W) := []

inductive TickAction (W : Type*)
  | queue (work : W)
  | clear
  | tick (block cancelled : Bool)
  /-- The innermost loop goes on to the next work, or ends. -/
  | next
  /-- The work that is running returns. -/
  | ret
  /-- It is left by an exception, and so is the innermost loop. -/
  | throw

namespace TickState

/-- The thread of the ticks is between two works of a loop. -/
def between (s : TickState W) : Bool := s.loops.head?.any fun l => !l.running

/-- One critical section of the queue, or what happens between two works. A loop whose iterators are
not valid any more has no next step. -/
def step (s : TickState W) : TickAction W → Option (TickState W)
  | .queue work =>
    let item := (s.pushed.length, work)
    some { s with
      work := (BlockingConcurrentQueue.push none s.work item).1
      pushed := s.pushed ++ [item] }
  | .clear => some { s with work := [], cleared := s.cleared ++ s.work.map Prod.fst }
  | .tick block cancelled =>
    if s.between then
      none
    else
      match BlockingConcurrentQueue.take true cancelled s.work with
      | none => if block && !cancelled then none else some s
      | some (taken, rest) => some
        { s with
          work := rest
          workload := s.workload ++ taken
          version := s.version + 1
          loops := ⟨0, (s.workload ++ taken).length, s.version + 1, false⟩ :: s.loops
          drained := s.drained ++ taken }
  | .next =>
    match s.loops with
    | ⟨pos, stop, version, false⟩ :: rest =>
      if version ≠ s.version then
        none
      else if pos = stop then
        some { s with workload := [], version := s.version + 1, loops := rest }
      else
        s.workload[pos]?.map fun item =>
          { s with loops := ⟨pos + 1, stop, version, true⟩ :: rest, invoked := s.invoked ++ [item] }
    | _ => none
  | .ret =>
    match s.loops with
    | ⟨pos, stop, version, true⟩ :: rest =>
      some { s with loops := ⟨pos, stop, version, false⟩ :: rest }
    | _ => none
  | .throw =>
    match s.loops with
    | ⟨_, _, _, true⟩ :: rest => some { s with loops := rest }
    | _ => none

/-- A tick finds something only when `m_workload` is empty, and a work throws only when none that
was drained with it is behind it. -/
def Clean (s : TickState W) : TickAction W → Prop
  | .tick _ cancelled => s.workload = [] ∨ s.work = [] ∨ cancelled = true
  | .throw => ∀ l ∈ s.loops.head?, l.pos = l.stop
  | _ => True

/-- A tick that is called by a work finds nothing, and no work throws. -/
def Calm (s : TickState W) : TickAction W → Prop
  | .tick _ cancelled => s.loops = [] ∨ s.work = [] ∨ cancelled = true
  | .throw => False
  | _ => True

instance (s : TickState W) : ∀ a, Decidable (s.Clean a)
  | .tick _ cancelled =>
    inferInstanceAs (Decidable (s.workload = [] ∨ s.work = [] ∨ cancelled = true))
  | .throw => inferInstanceAs (Decidable (∀ l ∈ s.loops.head?, l.pos = l.stop))
  | .queue _ | .clear | .next | .ret => .isTrue trivial

instance (s : TickState W) : ∀ a, Decidable (s.Calm a)
  | .tick _ cancelled => inferInstanceAs (Decidable (s.loops = [] ∨ s.work = [] ∨ cancelled = true))
  | .throw => .isFalse id
  | .queue _ | .clear | .next | .ret => .isTrue trivial

variable {s s' : TickState W}

/-! ### The steps -/

theorem step_queue {work : W} (h : s.step (.queue work) = some s') :
    s' = { s with
      work := s.work ++ [(s.pushed.length, work)]
      pushed := s.pushed ++ [(s.pushed.length, work)] } := by
  simp only [step, BlockingConcurrentQueue.push, BlockingConcurrentQueue.trim_none] at h
  exact (Option.some.inj h).symm

/-- A tick takes what is queued, or finds nothing and returns. -/
theorem step_tick {block cancelled : Bool} (h : s.step (.tick block cancelled) = some s') :
    (∀ l rest, s.loops = l :: rest → l.running = true) ∧
    ((s.work = [] ∨ cancelled = true) ∧ s' = s ∨
      (s.work ≠ [] ∧ cancelled = false) ∧ s' =
      { s with
        work := []
        workload := s.workload ++ s.work
        version := s.version + 1
        loops := ⟨0, (s.workload ++ s.work).length, s.version + 1, false⟩ :: s.loops
        drained := s.drained ++ s.work }) := by
  obtain ⟨hbetween, h⟩ := Option.ite_none_left_eq_some.1 h
  refine ⟨fun l rest hloops => by simpa [between, hloops] using hbetween, ?_⟩
  split at h
  · rename_i hnone
    obtain ⟨-, hs'⟩ := Option.ite_none_left_eq_some.1 h
    exact .inl ⟨BlockingConcurrentQueue.take_eq_none.1 hnone, (Option.some.inj hs').symm⟩
  · rename_i taken rest htaken
    have hsome : ¬(s.work = [] ∨ cancelled = true) := fun hor => by
      cases htaken.symm.trans (BlockingConcurrentQueue.take_eq_none.2 hor)
    obtain ⟨hwork, -, hrest⟩ := BlockingConcurrentQueue.take_eq htaken
    obtain rfl := hrest rfl
    rw [List.append_nil] at hwork
    subst hwork
    exact .inr ⟨by simpa [not_or] using hsome, (Option.some.inj h).symm⟩

/-- The innermost loop, whose iterators are valid, invokes a work or ends. -/
theorem step_next (h : s.step .next = some s') :
    ∃ pos stop rest, s.loops = ⟨pos, stop, s.version, false⟩ :: rest ∧
      (pos = stop ∧ s' = { s with workload := [], version := s.version + 1, loops := rest } ∨
        pos ≠ stop ∧ ∃ item, s.workload[pos]? = some item ∧ s' =
          { s with
            loops := ⟨pos + 1, stop, s.version, true⟩ :: rest
            invoked := s.invoked ++ [item] }) := by
  simp only [step] at h
  split at h
  · rename_i pos stop version rest hloops
    obtain ⟨hversion, h⟩ := Option.ite_none_left_eq_some.1 h
    obtain rfl : version = s.version := not_not.1 hversion
    refine ⟨pos, stop, rest, hloops, ?_⟩
    split_ifs at h with hpos
    · exact .inl ⟨hpos, (Option.some.inj h).symm⟩
    · obtain ⟨item, hitem, rfl⟩ := Option.map_eq_some_iff.1 h
      exact .inr ⟨hpos, item, hitem, rfl⟩
  · cases h

theorem step_ret (h : s.step .ret = some s') :
    ∃ pos stop version rest, s.loops = ⟨pos, stop, version, true⟩ :: rest ∧
      s' = { s with loops := ⟨pos, stop, version, false⟩ :: rest } := by
  simp only [step] at h
  split at h
  · rename_i pos stop version rest hloops
    exact ⟨pos, stop, version, rest, hloops, (Option.some.inj h).symm⟩
  · cases h

theorem step_throw (h : s.step .throw = some s') :
    ∃ pos stop version rest, s.loops = ⟨pos, stop, version, true⟩ :: rest ∧
      s' = { s with loops := rest } := by
  simp only [step] at h
  split at h
  · rename_i pos stop version rest hloops
    exact ⟨pos, stop, version, rest, hloops, (Option.some.inj h).symm⟩
  · cases h

/-! ### The dispatcher without exceptions and nested ticks -/

/-- What the dispatcher without exceptions and without nested ticks is at. What an exception left in
`m_workload` is not counted. -/
def view (s : TickState W) : DispatcherState W where
  work := s.work
  workload := if s.loops = [] then [] else s.workload
  ticking := s.loops.head?.map TickLoop.pos
  pushed := s.pushed
  cleared := s.cleared
  executed := s.invoked

/-- There is one loop at most, whose iterators are valid, and nothing is lost or invoked twice. -/
structure Tidy (s : TickState W) : Prop where
  loops : s.loops = [] ∨
    ∃ l, s.loops = [l] ∧ l.version = s.version ∧ l.stop = s.workload.length ∧ s.workload ≠ []
  consistent : s.view.Consistent
  drained : s.invoked ++ s.view.remaining = s.drained
  running : ∀ l ∈ s.loops, l.running = true → l.pos ≠ 0
  begun : ∀ x rest, s.workload = x :: rest → (∀ l ∈ s.loops, l.pos ≠ 0) → x ∈ s.invoked

theorem Tidy.initial : ({} : TickState W).Tidy where
  loops := .inl rfl
  consistent := .initial
  drained := rfl
  running := nofun
  begun := nofun

theorem Tidy.queue (h : s.Tidy) {work : W} (hstep : s.step (.queue work) = some s') : s'.Tidy := by
  obtain rfl := step_queue hstep
  have hview : s.view.step (.queue work) = some { s.view with
      work := s.work ++ [(s.pushed.length, work)]
      pushed := s.pushed ++ [(s.pushed.length, work)] } := by
    simp only [DispatcherState.step, BlockingConcurrentQueue.push,
      BlockingConcurrentQueue.trim_none]
    rfl
  exact { h with consistent := h.consistent.queue hview }

theorem Tidy.clear (h : s.Tidy) (hstep : s.step .clear = some s') : s'.Tidy := by
  obtain rfl := Option.some.inj hstep
  exact { h with consistent := h.consistent.clear rfl }

theorem Tidy.of_loops (h : s.Tidy) {l : TickLoop} {rest : List TickLoop}
    (hloops : s.loops = l :: rest) :
    rest = [] ∧ l.version = s.version ∧ l.stop = s.workload.length ∧ s.workload ≠ [] := by
  rcases h.loops with hnil | ⟨l', hl', hrest⟩
  · cases hnil.symm.trans hloops
  · cases hl'.symm.trans hloops
    exact ⟨rfl, hrest⟩

theorem Tidy.of_mem (h : s.Tidy) {l : TickLoop} (hl : l ∈ s.loops) :
    s.loops = [l] ∧ l.version = s.version := by
  obtain ⟨l', rest, hloops⟩ := List.exists_cons_of_ne_nil (List.ne_nil_of_mem hl)
  obtain ⟨rfl, hversion, -⟩ := h.of_loops hloops
  obtain rfl : l = l' := by simpa [hloops] using hl
  exact ⟨hloops, hversion⟩

/-- A tick drains into an empty workload, or does nothing. -/
theorem Tidy.tick (h : s.Tidy) {block cancelled : Bool} (ha : s.Clean (.tick block cancelled))
    (hstep : s.step (.tick block cancelled) = some s') : s'.Tidy := by
  obtain ⟨hrunning, ⟨-, rfl⟩ | ⟨⟨hwork, hcancelled⟩, rfl⟩⟩ := step_tick hstep
  · exact h
  · -- something is drained, so that `m_workload` was empty
    have hempty : s.workload = [] := by
      rcases ha with hempty | hnone | hc
      · exact hempty
      · exact absurd hnone hwork
      · cases hcancelled.symm.trans hc
    have hloops : s.loops = [] := by
      refine h.loops.resolve_right ?_
      rintro ⟨l, -, -, -, hne⟩
      exact hne hempty
    have hview : s.view.step (.tick block) = some
        { s.view with work := [], workload := s.work, ticking := some 0 } := by
      simp only [DispatcherState.step, view, hloops, List.head?_nil, Option.map_none,
        BlockingConcurrentQueue.take_of_ne_nil hwork, if_true, List.nil_append]
    have hdrained := h.drained
    simp only [DispatcherState.remaining, view, hloops, if_true, List.drop_nil,
      List.append_nil] at hdrained
    refine ⟨.inr ⟨_, by rw [hloops], rfl, rfl, by simp [hwork]⟩, ?_, ?_, ?_, ?_⟩
    · have hconsistent := (h.consistent.tick hview).1
      simpa [view, hempty] using hconsistent
    · simp [DispatcherState.remaining, view, hempty, hdrained]
    · simp [hloops]
    · intro x rest _ hpos
      exact absurd rfl (hpos _ List.mem_cons_self)

/-- The loop is left when all works were invoked, by an exception or not. -/
theorem Tidy.leave (h : s.Tidy) {l : TickLoop} (hloops : s.loops = [l])
    (hpos : l.pos = s.workload.length)
    {workload : List (ℕ × W)} {version : ℕ} (hworkload : workload = [] ∨ workload = s.workload) :
    Tidy { s with workload, version, loops := [] } := by
  have hview : s.view.step .next = some { s.view with workload := [], ticking := none } := by
    simp [DispatcherState.step, view, hloops, hpos]
  have hdrained := h.drained
  simp only [DispatcherState.remaining, view, hloops, List.head?_cons, Option.map_some,
    Option.getD_some, reduceCtorEq, if_false, hpos, List.drop_length, List.append_nil] at hdrained
  refine ⟨.inl rfl, ?_, ?_, (fun l hl => by cases hl),
    fun x rest (hx : workload = x :: rest) _ => ?_⟩
  · have hconsistent := h.consistent.next hview
    simpa [view] using hconsistent
  · simpa [DispatcherState.remaining, view] using hdrained
  · rcases hworkload with rfl | rfl
    · cases hx
    · exact h.begun x rest hx (by simp [hloops, hpos, hx])

theorem Tidy.next (h : s.Tidy) (hstep : s.step .next = some s') : s'.Tidy := by
  obtain ⟨pos, stop, rest, hloops, hend⟩ := step_next hstep
  obtain ⟨rfl, -, hstop, hne⟩ := h.of_loops hloops
  obtain rfl : stop = s.workload.length := hstop
  have hdrained := h.drained
  simp only [DispatcherState.remaining, view, hloops, List.head?_cons, Option.map_some,
    Option.getD_some, reduceCtorEq, if_false] at hdrained
  rcases hend with ⟨rfl, rfl⟩ | ⟨hpos, item, hitem, rfl⟩
  · exact h.leave hloops rfl (.inl rfl)
  · have hview : s.view.step .next = some
        { s.view with executed := s.invoked ++ [item], ticking := some (pos + 1) } := by
      simp [DispatcherState.step, view, hloops, hitem]
    obtain ⟨hlt, rfl⟩ := List.getElem?_eq_some_iff.1 hitem
    rw [List.drop_eq_getElem_cons hlt] at hdrained
    refine ⟨.inr ⟨_, rfl, rfl, rfl, hne⟩, ?_, ?_, ?_, ?_⟩
    · have hconsistent := h.consistent.next hview
      simpa [view, hloops] using hconsistent
    · simpa [DispatcherState.remaining, view] using hdrained
    · simp
    · intro x rest (hx : s.workload = x :: rest) _
      by_cases hzero : pos = 0
      · subst hzero
        simp [hx]
      · exact List.mem_append_left _ (h.begun x rest hx (by simp [hloops, hzero]))

theorem Tidy.ret (h : s.Tidy) (hstep : s.step .ret = some s') : s'.Tidy := by
  obtain ⟨pos, stop, version, rest, hloops, rfl⟩ := step_ret hstep
  obtain ⟨rfl, hl⟩ := h.of_loops hloops
  have hview : view { s with loops := [⟨pos, stop, version, false⟩] } = s.view := by
    simp [view, hloops]
  refine ⟨.inr ⟨_, rfl, hl⟩, hview ▸ h.consistent, ?_, ?_, fun x rest hx hpos => ?_⟩
  · rw [hview]
    exact h.drained
  · simp
  · exact h.begun x rest hx (by simpa [hloops] using hpos)

/-- The work that throws is the last one, so that nothing is left behind. -/
theorem Tidy.throw (h : s.Tidy) (ha : s.Clean .throw) (hstep : s.step .throw = some s') :
    s'.Tidy := by
  obtain ⟨pos, stop, version, rest, hloops, rfl⟩ := step_throw hstep
  obtain ⟨rfl, -, hstop, -⟩ := h.of_loops hloops
  have hpos : pos = stop := ha _ (by rw [hloops]; rfl)
  exact h.leave hloops (hpos.trans hstop) (.inr rfl)

theorem Tidy.step (h : s.Tidy) {a : TickAction W} (ha : s.Clean a) (hstep : s.step a = some s') :
    s'.Tidy := by
  cases a with
  | queue work => exact h.queue hstep
  | clear => exact h.clear hstep
  | tick block cancelled => exact h.tick ha hstep
  | next => exact h.next hstep
  | ret => exact h.ret hstep
  | throw => exact h.throw ha hstep

/-! ### A drain into a workload that is not empty -/

/-- A loop begins at the front. -/
theorem exists_step_next {x : ℕ × W} {rest : List (ℕ × W)} {stop : ℕ} {loops : List TickLoop}
    (hloops : s.loops = ⟨0, stop, s.version, false⟩ :: loops) (hstop : stop ≠ 0)
    (hx : s.workload = x :: rest) :
    ∃ s', s.step .next = some s' ∧ s'.invoked = s.invoked ++ [x] := by
  refine ⟨{ s with
    loops := ⟨1, stop, s.version, true⟩ :: loops, invoked := s.invoked ++ [x] }, ?_, rfl⟩
  simp [step, hloops, hx, hstop.symm]

/-- **A tick that drains into a workload that is not empty invokes a work a second time**, and
leaves the loops that are running with iterators that are not valid any more. -/
theorem Tidy.invokes_again (h : s.Tidy) (hworkload : s.workload ≠ []) (hwork : s.work ≠ [])
    {block : Bool} (hstep : s.step (.tick block false) = some s') :
    (∀ l ∈ s.loops, l ∈ s'.loops ∧ l.version ≠ s'.version) ∧
      ∃ s'', s'.step .next = some s'' ∧ ¬ (s''.invoked.map Prod.fst).Nodup := by
  obtain ⟨hrunning, ⟨hnone, -⟩ | ⟨-, rfl⟩⟩ := step_tick hstep
  · exact absurd hnone (by simp [hwork])
  · obtain ⟨x, rest, hx⟩ := List.exists_cons_of_ne_nil hworkload
    have hmem : x ∈ s.invoked := h.begun x rest hx fun l hl =>
      h.running l hl (hrunning l [] (h.of_mem hl).1)
    refine ⟨fun l hl => ⟨List.mem_cons_of_mem _ hl, ?_⟩, ?_⟩
    · simp only [(h.of_mem hl).2]
      omega
    · obtain ⟨s'', hs'', hinvoked⟩ := exists_step_next (s := { s with
          work := []
          workload := s.workload ++ s.work
          version := s.version + 1
          loops := ⟨0, (s.workload ++ s.work).length, s.version + 1, false⟩ :: s.loops
          drained := s.drained ++ s.work }) rfl (by simp [hx]) (by rw [hx]; rfl)
      refine ⟨s'', hs'', fun hnodup => ?_⟩
      rw [hinvoked, List.map_append, List.nodup_append] at hnodup
      exact hnodup.2.2 _ (List.mem_map_of_mem hmem) _ (List.mem_map_of_mem List.mem_cons_self) rfl

theorem Tidy.nodup (h : s.Tidy) : (s.invoked.map Prod.fst).Nodup := by
  have hinvoked : s.invoked <+: s.view.live :=
    ⟨s.view.remaining ++ s.view.work, by rw [← List.append_assoc]; exact h.consistent.live⟩
  exact h.consistent.nodup.sublist (hinvoked.sublist.map _)

theorem Tidy.invoked_eq (h : s.Tidy) (hloops : s.loops = []) : s.invoked = s.drained := by
  rw [← h.drained, DispatcherState.remaining, view, if_pos hloops, List.drop_nil, List.append_nil]

theorem clean_of_calm (h : s.loops = [] → s.workload = []) {a : TickAction W} (ha : s.Calm a) :
    s.Clean a := by
  cases a with
  | tick block cancelled => exact ha.imp_left h
  | throw => exact ha.elim
  | _ => trivial

/-- When nothing throws, `m_workload` is empty between the ticks. -/
theorem idle_of_calm (h : s.loops = [] → s.workload = []) {a : TickAction W} (ha : s.Calm a)
    (hstep : s.step a = some s') (hloops : s'.loops = []) : s'.workload = [] := by
  cases a with
  | queue work =>
    obtain rfl := step_queue hstep
    exact h hloops
  | clear =>
    obtain rfl := Option.some.inj hstep
    exact h hloops
  | tick block cancelled =>
    obtain ⟨-, ⟨-, rfl⟩ | ⟨-, rfl⟩⟩ := step_tick hstep
    · exact h hloops
    · cases hloops
  | next =>
    obtain ⟨pos, stop, rest, -, ⟨-, rfl⟩ | ⟨-, item, -, rfl⟩⟩ := step_next hstep
    · rfl
    · cases hloops
  | ret =>
    obtain ⟨pos, stop, version, rest, -, rfl⟩ := step_ret hstep
    cases hloops
  | throw => exact ha.elim

/-! ### Runs -/

/-- **A work that throws does not corrupt the dispatcher** in a run in which it is the last one that
its tick drained, and no later tick finds anything. In every state of such a run: no work was
invoked twice; the works invoked are the first ones of those drained, in their order; when no tick
is running all of them are; and a tick that finds something in spite of an exception invokes a work
a second time. -/
theorem survives_throw (h : Reach step Clean ({} : TickState W) s) :
    (s.invoked.map Prod.fst).Nodup ∧ s.invoked <+: s.drained ∧
    (s.loops = [] → s.invoked = s.drained) ∧
    ∀ block s₁, ¬s.Clean (.tick block false) → s.step (.tick block false) = some s₁ →
      ∃ s₂, s₁.step .next = some s₂ ∧ ¬ (s₂.invoked.map Prod.fst).Nodup := by
  have hs : s.Tidy := h.invariant .initial fun _ _ _ ha hclean hstep => ha.step hclean hstep
  refine ⟨hs.nodup, ⟨s.view.remaining, hs.drained⟩, hs.invoked_eq, fun block s₁ hclean hstep => ?_⟩
  simp only [Clean, not_or] at hclean
  exact (hs.invokes_again hclean.1 hclean.2.1 hstep).2

/-- Two works, of which the second one throws. -/
theorem survives_throw_last : ∃ s, Reach step Clean ({} : TickState ℕ) s ∧
    s.invoked = [(0, 10), (1, 20)] ∧ (s.invoked.map Prod.fst).Nodup := by
  have hrun : (runWhile (fun s a => decide (s.Clean a)) step ({} : TickState ℕ)
      [.queue 10, .queue 20, .tick false false, .next, .ret, .next, .throw,
       .tick false false]).map invoked =
      some [(0, 10), (1, 20)] := by decide
  obtain ⟨s, hreach, hinvoked⟩ := exists_reach_of_runWhile (fun _ _ => of_decide_eq_true) hrun
  exact ⟨s, hreach, hinvoked, (survives_throw hreach).1⟩

/-- **After an exception a work is invoked again**: the first of two works throws, and a third one
is queued before the next tick. -/
theorem invokes_again_after_throw : (run step ({} : TickState ℕ) [.queue 10, .queue 20,
    .tick false false, .next, .throw, .queue 30, .tick false false, .next]).map
    (fun s => (s.loops.length, s.invoked, s.drained)) =
    some (1, [(0, 10), (0, 10)], [(0, 10), (1, 20), (2, 30)]) := by decide

/-- **To tick a dispatcher from inside a work is safe** in a run in which such a tick finds nothing,
and no work throws. In every state of such a run: no work was invoked twice; the iterators of the
loops are valid; when the outermost tick has returned the works drained are invoked, in their order;
and a tick in a work that finds something leaves a loop whose iterators are not valid, and invokes a
work a second time. -/
theorem survives_nested_tick (h : Reach step Calm ({} : TickState W) s) :
    (s.invoked.map Prod.fst).Nodup ∧ (∀ l ∈ s.loops, l.version = s.version) ∧
    (s.loops = [] → s.invoked = s.drained) ∧
    ∀ block s₁, ¬s.Calm (.tick block false) → s.step (.tick block false) = some s₁ →
      (∃ l ∈ s₁.loops, l.version ≠ s₁.version) ∧
      ∃ s₂, s₁.step .next = some s₂ ∧ ¬ (s₂.invoked.map Prod.fst).Nodup := by
  have hs : s.Tidy ∧ (s.loops = [] → s.workload = []) := by
    refine h.invariant (I := fun s => s.Tidy ∧ (s.loops = [] → s.workload = []))
      ⟨.initial, fun _ => rfl⟩
      fun a l b ha hcalm hstep =>
        ⟨ha.1.step (clean_of_calm ha.2 hcalm) hstep, idle_of_calm ha.2 hcalm hstep⟩
  obtain ⟨hs, hidle⟩ := hs
  refine ⟨hs.nodup, fun l hl => (hs.of_mem hl).2, hs.invoked_eq, fun block s₁ hcalm hstep => ?_⟩
  simp only [Calm, not_or] at hcalm
  obtain ⟨l, rest, hl⟩ := List.exists_cons_of_ne_nil hcalm.1
  obtain ⟨hstale, hagain⟩ := hs.invokes_again (hs.of_loops hl).2.2.2 hcalm.2.1 hstep
  exact ⟨⟨l, hstale l (hl ▸ List.mem_cons_self)⟩, hagain⟩

/-- A work that queues another one and ticks with a token that is cancelled. -/
theorem survives_nested_tick_cancelled : ∃ s, Reach step Calm ({} : TickState ℕ) s ∧
    s.invoked = [(0, 10), (1, 20)] ∧ (s.invoked.map Prod.fst).Nodup := by
  have hrun : (runWhile (fun s a => decide (s.Calm a)) step ({} : TickState ℕ) [.queue 10,
      .tick false false, .next, .tick false false, .queue 20, .tick true true, .ret, .next,
      .tick true false, .next, .ret, .next]).map invoked = some [(0, 10), (1, 20)] := by decide
  obtain ⟨s, hreach, hinvoked⟩ := exists_reach_of_runWhile (fun _ _ => of_decide_eq_true) hrun
  exact ⟨s, hreach, hinvoked, (survives_nested_tick hreach).1⟩

/-- **A tick in a work invokes the work again**, when something is queued, and the loop of the outer
tick is left with iterators that are not valid. -/
theorem invokes_again_in_nested_tick :
    (run step ({} : TickState ℕ)
      [.queue 10, .tick false false, .next, .queue 20, .tick false false, .next]).map
      (fun s => (s.version, s.loops.map TickLoop.version, s.invoked)) =
    some (2, [2, 1], [(0, 10), (0, 10)]) := by decide

end TickState

end Arcana.Threading
