import Mathlib.Logic.Function.Basic
import Arcana.Threading.PendingTaskScope

/-!
# The calls under the mutex of a `pending_task_scope`

`when_all` may complete the task of the scope while it holds `m_mutex`. To complete a task is to run
its continuations, and these may call the scope again, which would lock the mutex a second time. It
does not come to this: to attach a continuation to the task of the scope one has to have it from a
`when_all` that returned, and since then `m_setcompletion` is set whenever nothing is pending
(`Guarded`).

The threads have call stacks here. The steps are those of the innermost calls: the lock of the
mutex, the critical section up to its unlock, and the calls outside; user code, which is a thread's
own or that of a continuation, calls whatever it likes.

* `ScopeFrame` are the calls with the point where each goes on, and `ScopeStacks.step` is a step of
  a thread.
* `ScopeStacks.Locked` says that the mutex is held by the call stack of its holder, and nowhere
  else.
* `ScopeStacks.Guarded` is the invariant: who may have the task of the scope, and who may complete
  it.
* `Guarded.isReady`, `Guarded.completeInternal`, `Guarded.whenAllReturn` and so on say that the
  steps keep it, and `Guarded.step` puts these together.
* `ScopeStacks.never_locks_twice` is the result about runs.
-/

namespace Arcana.Threading

open Function Foundations

namespace PendingTaskScope

variable {E : Type*} [ErrorType E]

theorem add_eq_ok {s t : PendingTaskScope E} (h : s.add = some (.ok t)) :
    s.disposing = false ∧ t = { s with pending := s.pending + 1 } := by
  simp only [add] at h
  split_ifs at h with hd hp
  · cases h
  · cases h
    exact ⟨Bool.eq_false_iff.2 hd, rfl⟩

/-- The condition in `when_all`. -/
def isReady (s : PendingTaskScope E) : Bool := s.pending == 0 && !s.setcompletion

/-- The critical section of `when_all` but for `complete_internal`. -/
def dispose (s : PendingTaskScope E) : PendingTaskScope E :=
  { s with disposing := true, setcompletion := s.setcompletion || s.isReady }

theorem whenAll_eq (s : PendingTaskScope E) :
    s.whenAll = if s.isReady then s.dispose.completeInternal else s.dispose := by
  by_cases hready : s.pending = 0 ∧ s.setcompletion = false
  · simp [whenAll, isReady, dispose, hready]
  · have hfalse : s.isReady = false := by simpa [isReady] using hready
    rw [whenAll, if_neg hready, hfalse]
    simp [dispose, hfalse]

end PendingTaskScope

/-- What is attached to a task. -/
inductive Continuation (τ : Type*)
  | user
  /-- The continuation of `operator+=`. -/
  | scope (task : τ)
  deriving DecidableEq

/-- A call and the point where it goes on. -/
inductive ScopeFrame (τ : Type*)
  | user
  | add (task : τ)
  /-- `operator+=` with the mutex held, and so on. -/
  | addLocked (task : τ)
  | addThen (task : τ)
  | report (task : τ)
  | reportLocked (task : τ)
  | whenAll
  | whenAllLocked
  /-- `complete_internal`, called from `when_all` or from the continuation of `operator+=`. -/
  | completeInternal (fromWhenAll : Bool)
  | whenAllUnlock
  | whenAllReturn
  /-- `do_completion`. -/
  | run (continuations : List (Continuation τ))
  deriving DecidableEq

/-- What user code does. -/
inductive ScopeCall (τ E R : Type*)
  | add (task : τ)
  | whenAll
  | completeTask (task : τ) (result : Except E R)
  | thenTask (task : τ)
  /-- It attaches a continuation to a task that a `when_all` returned. -/
  | thenWhenAll
  | ret

/-- A scope and its mutex, the tasks with their results and continuations, the continuations of
`m_completed`, whether a `when_all` has returned, and the call stacks. -/
structure ScopeStacks (ι τ E R : Type*) [ErrorType E] where
  scope : PendingTaskScope E := {}
  mutex : Option ι := none
  results : τ → Option (Except E R) := fun _ => none
  continuations : τ → List (Continuation τ) := fun _ => []
  listeners : List (Continuation τ) := []
  obtained : Bool := false
  stack : ι → List (ScopeFrame τ) := fun _ => [.user]

inductive ScopeStackAction (ι τ E R : Type*)
  | call (i : ι) (c : ScopeCall τ E R)
  | goOn (i : ι)

/-- The call that runs a continuation. -/
def Continuation.frame {τ : Type*} : Continuation τ → ScopeFrame τ
  | .user => .user
  | .scope task => .report task

namespace ScopeFrame

variable {τ : Type*}

/-- The call holds the mutex. -/
def holds : ScopeFrame τ → Bool
  | .addLocked _ | .reportLocked _ | .whenAllLocked | .completeInternal true | .whenAllUnlock =>
    true
  | _ => false

/-- The call is about to lock the mutex. -/
def locks : ScopeFrame τ → Bool
  | .add _ | .report _ | .whenAll => true
  | _ => false

theorem not_holds_of_locks {f : ScopeFrame τ} (h : f.locks = true) :
    f.holds = false ∧ f ≠ .run [] := by
  cases f <;> simp_all [locks, holds]

/-- The call is a `when_all` that has set `m_disposing`. -/
def disposed : ScopeFrame τ → Bool
  | .completeInternal true | .whenAllUnlock | .whenAllReturn => true
  | _ => false

end ScopeFrame

namespace ScopeStacks

variable {ι τ E R : Type*} [DecidableEq ι] [DecidableEq τ] [ErrorType E]

def setStack (s : ScopeStacks ι τ E R) (i : ι) (fs : List (ScopeFrame τ)) : ScopeStacks ι τ E R :=
  { s with stack := update s.stack i fs }

/-- The constructor of `lock_guard`. -/
def lock (s : ScopeStacks ι τ E R) (i : ι) (fs : List (ScopeFrame τ)) :
    Option (ScopeStacks ι τ E R) :=
  if s.mutex = none then some { s.setStack i fs with mutex := some i } else none

/-- The end of a critical section. -/
def unlock (s : ScopeStacks ι τ E R) (scope : PendingTaskScope E) (i : ι)
    (fs : List (ScopeFrame τ)) :
    ScopeStacks ι τ E R :=
  { s.setStack i fs with scope, mutex := none }

/-- User code goes on, with the calls below it. -/
def call (s : ScopeStacks ι τ E R) (i : ι) (rest : List (ScopeFrame τ)) :
    ScopeCall τ E R → Option (ScopeStacks ι τ E R)
  | .add task => some (s.setStack i (.add task :: .user :: rest))
  | .whenAll => some (s.setStack i (.whenAll :: .user :: rest))
  | .completeTask task result =>
    if (s.results task).isNone then
      some { s.setStack i (.run (s.continuations task) :: .user :: rest) with
        results := update s.results task (some result)
        continuations := update s.continuations task [] }
    else
      none
  | .thenTask task => some
    (if (s.results task).isSome then
      s.setStack i (.run [.user] :: .user :: rest)
    else
      { s with continuations := update s.continuations task (s.continuations task ++ [.user]) })
  | .thenWhenAll =>
    if s.obtained then
      some (if s.scope.completed ≠ [] then
        s.setStack i (.run [.user] :: .user :: rest)
      else
        { s with listeners := s.listeners ++ [.user] })
    else
      none
  | .ret => some (s.setStack i rest)

/-- Another call goes on. -/
def goOn (s : ScopeStacks ι τ E R) (i : ι) (rest : List (ScopeFrame τ)) :
    ScopeFrame τ → Option (ScopeStacks ι τ E R)
  | .user => none
  | .add task => s.lock i (.addLocked task :: rest)
  | .addLocked task => s.scope.add.map fun
    | .error _ => s.unlock s.scope i rest
    | .ok scope => s.unlock scope i (.addThen task :: rest)
  | .addThen task => some
    (if (s.results task).isSome then
      s.setStack i (.run [.scope task] :: rest)
    else
      { s.setStack i rest with
        continuations := update s.continuations task (s.continuations task ++ [.scope task]) })
  | .report task => s.lock i (.reportLocked task :: rest)
  | .reportLocked task => (s.results task).map fun result =>
    s.unlock (s.scope.report result).1 i
      (if (s.scope.report result).2 then .completeInternal false :: rest else rest)
  | .whenAll => s.lock i (.whenAllLocked :: rest)
  | .whenAllLocked => some
    { s.setStack i
        ((if s.scope.isReady then .completeInternal true else .whenAllUnlock) :: rest) with
      scope := s.scope.dispose }
  | .completeInternal fromWhenAll => some
    { s.setStack i (.run s.listeners :: if fromWhenAll then .whenAllUnlock :: rest else rest) with
      scope := s.scope.completeInternal
      listeners := [] }
  | .whenAllUnlock => some (s.unlock s.scope i (.whenAllReturn :: rest))
  | .whenAllReturn => some { s.setStack i rest with obtained := true }
  | .run [] => some (s.setStack i rest)
  | .run (c :: cs) => some (s.setStack i (c.frame :: .run cs :: rest))

/-- The innermost call of a thread goes on. -/
def step (s : ScopeStacks ι τ E R) : ScopeStackAction ι τ E R → Option (ScopeStacks ι τ E R)
  | .call i c =>
    match s.stack i with
    | .user :: rest => s.call i rest c
    | _ => none
  | .goOn i =>
    match s.stack i with
    | f :: rest => s.goOn i rest f
    | [] => none

/-! ## The holder of the mutex -/

section Holder

omit [DecidableEq ι] [DecidableEq τ]

/-- None of the calls holds the mutex. -/
def Free (fs : List (ScopeFrame τ)) : Prop := ∀ f ∈ fs, f.holds = false

/-- One of the calls holds the mutex: it is the innermost one, but for a `do_completion` that has
nothing to run. -/
def Holding (fs : List (ScopeFrame τ)) : Prop :=
  ∃ f rest, f.holds = true ∧ Free rest ∧ (fs = f :: rest ∨ fs = .run [] :: f :: rest)

/-- The mutex is held by the call stack of its holder. -/
def Locked (mutex : Option ι) (stack : ι → List (ScopeFrame τ)) : Prop :=
  ∀ i, (mutex = some i → Holding (stack i)) ∧ (mutex ≠ some i → Free (stack i))

variable {mutex : Option ι} {stack : ι → List (ScopeFrame τ)} {i : ι} {f : ScopeFrame τ}
  {rest : List (ScopeFrame τ)}

theorem free_cons : Free (f :: rest) ↔ f.holds = false ∧ Free rest := List.forall_mem_cons

theorem Locked.of_holds (h : Locked mutex stack) (hi : stack i = f :: rest) (hf : f.holds = true) :
    mutex = some i ∧ Free rest := by
  have hmutex : mutex = some i := by
    by_contra hne
    have hfree := (h i).2 hne
    rw [hi, free_cons, hf] at hfree
    exact Bool.noConfusion hfree.1
  obtain ⟨g, rest', hg, hrest, hst | hst⟩ := (h i).1 hmutex
  · cases hi.symm.trans hst
    exact ⟨hmutex, hrest⟩
  · cases hi.symm.trans hst
    cases hf

theorem Locked.of_not_holds (h : Locked mutex stack) (hi : stack i = f :: rest)
    (hf : f.holds = false) (hrun : f ≠ .run []) : mutex ≠ some i ∧ Free rest := by
  have hmutex : mutex ≠ some i := by
    intro he
    obtain ⟨g, rest', hg, -, hst | hst⟩ := (h i).1 he
    · cases hi.symm.trans hst
      cases hf.symm.trans hg
    · cases hi.symm.trans hst
      exact hrun rfl
  have hfree := (h i).2 hmutex
  rw [hi, free_cons] at hfree
  exact ⟨hmutex, hfree.2⟩

variable [DecidableEq ι]

theorem Locked.update {mutex' : Option ι} {fs : List (ScopeFrame τ)} (h : Locked mutex stack)
    (hother : ∀ j, j ≠ i → (mutex' = some j ↔ mutex = some j))
    (hholding : mutex' = some i → Holding fs) (hfree : mutex' ≠ some i → Free fs) :
    Locked mutex' (Function.update stack i fs) := by
  intro j
  by_cases hj : j = i
  · subst hj
    rw [update_self]
    exact ⟨hholding, hfree⟩
  · rw [update_of_ne hj, hother j hj]
    exact ⟨fun he => (h j).1 he, fun hne => (h j).2 fun he => hne ((hother j hj).2 he)⟩

/-- A call that does not hold the mutex goes on. -/
theorem Locked.goOn {fs : List (ScopeFrame τ)} (h : Locked mutex stack) (hi : stack i = f :: rest)
    (hf : f.holds = false) (hrun : f ≠ .run []) (hfs : Free rest → Free fs) :
    Locked mutex (Function.update stack i fs) := by
  obtain ⟨hmutex, hrest⟩ := h.of_not_holds hi hf hrun
  exact h.update (fun _ _ => Iff.rfl) (fun he => absurd he hmutex) fun _ => hfs hrest

/-- The holder of the mutex goes on. -/
theorem Locked.hold {g : ScopeFrame τ} (h : Locked mutex stack) (hi : stack i = f :: rest)
    (hf : f.holds = true) (hg : g.holds = true) :
    Locked mutex (Function.update stack i (g :: rest)) := by
  obtain ⟨hmutex, hrest⟩ := h.of_holds hi hf
  exact h.update (fun _ _ => Iff.rfl) (fun _ => ⟨g, rest, hg, hrest, .inl rfl⟩) fun hne =>
    absurd hmutex hne

/-- The end of a `do_completion`. -/
theorem Locked.run_nil (h : Locked mutex stack) (hi : stack i = .run [] :: rest) :
    Locked mutex (Function.update stack i rest) := by
  refine h.update (fun _ _ => Iff.rfl) (fun he => ?_) fun hne => ?_
  · obtain ⟨g, rest', hg, hrest, hst | hst⟩ := (h i).1 he
    · cases hi.symm.trans hst
      cases hg
    · cases hi.symm.trans hst
      exact ⟨g, rest', hg, hrest, .inl rfl⟩
  · have hfree := (h i).2 hne
    rw [hi, free_cons] at hfree
    exact hfree.2

theorem Locked.lock {g : ScopeFrame τ} (h : Locked none stack) (hi : stack i = f :: rest)
    (hg : g.holds = true) : Locked (some i) (Function.update stack i (g :: rest)) := by
  have hfree := (h i).2 (by simp)
  rw [hi, free_cons] at hfree
  exact h.update (fun j hj => by simp [hj.symm]) (fun _ => ⟨g, rest, hg, hfree.2, .inl rfl⟩)
    (by simp)

theorem Locked.unlock {fs : List (ScopeFrame τ)} (h : Locked mutex stack) (hi : stack i = f :: rest)
    (hf : f.holds = true) (hfs : Free rest → Free fs) :
    Locked none (Function.update stack i fs) := by
  obtain ⟨rfl, hrest⟩ := h.of_holds hi hf
  exact h.update (fun j hj => by simp [hj.symm]) (by simp) fun _ => hfs hrest

end Holder

/-! ## The invariant -/

/-- What holds between the steps. Before a `when_all` has set `m_disposing`, nobody has the task of
the scope; afterwards no `when_all` completes it. -/
structure Guarded (s : ScopeStacks ι τ E R) : Prop where
  locked : Locked s.mutex s.stack
  closed : s.scope.disposing = true → s.scope.pending = 0 → s.scope.setcompletion = true
  obtained : s.obtained = true → s.scope.disposing = true
  disposed : ∀ i, ∀ f ∈ s.stack i, f.disposed = true → s.scope.disposing = true
  listeners : s.listeners ≠ [] → s.obtained = true
  first : ∀ i, .completeInternal true ∈ s.stack i →
    s.obtained = false ∧ ∀ j, .whenAllReturn ∉ s.stack j

section Guarded

omit [DecidableEq τ]

variable {s s' : ScopeStacks ι τ E R} {i : ι} {f : ScopeFrame τ} {rest fs : List (ScopeFrame τ)}

omit [DecidableEq ι] in
theorem Guarded.initial : ({} : ScopeStacks ι τ E R).Guarded where
  locked i := ⟨nofun, fun _ f hf => by
    obtain rfl := List.mem_singleton.1 hf
    rfl⟩
  closed := nofun
  obtained := nofun
  disposed i f hf hdisposed := by
    obtain rfl := List.mem_singleton.1 hf
    cases hdisposed
  listeners h := absurd rfl h
  first i hi := by simp at hi

theorem mem_of_mem_update {stack : ι → List (ScopeFrame τ)} (hi : stack i = f :: rest) {j : ι}
    {g : ScopeFrame τ} (hj : g ∈ update stack i fs j) (hfs : g ∈ fs → g ∈ f :: rest) :
    g ∈ stack j := by
  by_cases hji : j = i
  · subst hji
    rw [update_self] at hj
    exact hi ▸ hfs hj
  · rwa [update_of_ne hji] at hj

/-- A step by which no call of `when_all` gets further. -/
theorem Guarded.of_old (h : s.Guarded) (hi : s.stack i = f :: rest)
    (hstack : s'.stack = update s.stack i fs) (hold : ∀ g ∈ fs, g.disposed = true → g ∈ f :: rest)
    (hlocked : Locked s'.mutex (update s.stack i fs))
    (hclosed : s'.scope.disposing = true → s'.scope.pending = 0 → s'.scope.setcompletion = true)
    (hdisposing : s.scope.disposing = true → s'.scope.disposing = true)
    (hobtained : s'.obtained = s.obtained) (hlisteners : s'.listeners ≠ [] → s.obtained = true) :
    s'.Guarded := by
  have hmem {j g} (hg : g ∈ s'.stack j) (hdisposed : g.disposed = true) : g ∈ s.stack j :=
    mem_of_mem_update hi (hstack ▸ hg) fun hfs => hold g hfs hdisposed
  refine ⟨hstack ▸ hlocked, hclosed, fun ho => hdisposing (h.obtained (hobtained ▸ ho)),
    fun j g hg hg' => hdisposing (h.disposed j g (hmem hg hg') hg'), fun hl => ?_, fun j hj => ?_⟩
  · rw [hobtained]
    exact hlisteners hl
  · obtain ⟨hnone, hreturn⟩ := h.first j (hmem hj rfl)
    exact ⟨hobtained.trans hnone, fun k hk => hreturn k (hmem hk rfl)⟩

omit [DecidableEq ι] in
/-- The calls that a step leaves, of which those that are new neither hold the mutex nor are those
of a `when_all`. -/
theorem free_and_mem (hfs : ∀ g ∈ fs, g.holds = false ∧ g.disposed = false ∨ g ∈ rest) :
    (Free rest → Free fs) ∧ ∀ g ∈ fs, g.disposed = true → g ∈ f :: rest := by
  refine ⟨fun hrest g hg => ?_, fun g hg hdisposed => ?_⟩
  · rcases hfs g hg with ⟨hg', -⟩ | hg'
    · exact hg'
    · exact hrest g hg'
  · rcases hfs g hg with ⟨-, hg'⟩ | hg'
    · cases hg'.symm.trans hdisposed
    · exact List.mem_cons_of_mem _ hg'

theorem Guarded.setStack (h : s.Guarded) (hi : s.stack i = f :: rest) (hf : f.holds = false)
    (hrun : f ≠ .run []) (hfs : ∀ g ∈ fs, g.holds = false ∧ g.disposed = false ∨ g ∈ rest)
    {s' : ScopeStacks ι τ E R} (hstack : s'.stack = update s.stack i fs)
    (hmutex : s'.mutex = s.mutex)
    (hscope : s'.scope = s.scope) (hobtained : s'.obtained = s.obtained)
    (hlisteners : s'.listeners ≠ [] → s.obtained = true) : s'.Guarded := by
  obtain ⟨hfree, hold⟩ := free_and_mem hfs
  refine h.of_old hi hstack hold ?_ (hscope ▸ h.closed) (hscope ▸ id) hobtained hlisteners
  rw [hmutex]
  exact h.locked.goOn hi hf hrun hfree

/-- The mutex is locked. -/
theorem Guarded.lock (h : s.Guarded) (hi : s.stack i = f :: rest) {g : ScopeFrame τ}
    (hg : g.holds = true) (hdisposed : g.disposed = false)
    (hstep : s.lock i (g :: rest) = some s') :
    s'.Guarded := by
  obtain ⟨hnone, hs'⟩ := Option.ite_none_right_eq_some.1 hstep
  cases hs'
  refine h.of_old hi rfl (fun f' hf' hd => ?_) ((hnone ▸ h.locked).lock hi hg) h.closed id rfl
    h.listeners
  rcases List.mem_cons.1 hf' with rfl | hf'
  · cases hdisposed.symm.trans hd
  · exact List.mem_cons_of_mem _ hf'

/-- The mutex is unlocked. -/
theorem Guarded.unlock (h : s.Guarded) (hi : s.stack i = f :: rest) (hf : f.holds = true)
    (hfs : ∀ g ∈ fs, g.holds = false ∧ g.disposed = false ∨ g ∈ rest) {scope : PendingTaskScope E}
    (hclosed : scope.disposing = true → scope.pending = 0 → scope.setcompletion = true)
    (hdisposing : s.scope.disposing = true → scope.disposing = true) :
    (s.unlock scope i fs).Guarded := by
  obtain ⟨hfree, hold⟩ := free_and_mem hfs
  exact h.of_old hi rfl hold (h.locked.unlock hi hf hfree) hclosed hdisposing rfl h.listeners

end Guarded

variable {s s' : ScopeStacks ι τ E R} {i : ι} {f : ScopeFrame τ} {rest fs : List (ScopeFrame τ)}

omit [DecidableEq ι] [DecidableEq τ] in
/-- A `when_all` that finds nothing pending is the first one, and nobody has the task of the
scope. -/
theorem Guarded.isReady (h : s.Guarded) (hready : s.scope.isReady = true) :
    s.scope.disposing = false := by
  simp only [PendingTaskScope.isReady, Bool.and_eq_true, beq_iff_eq, Bool.not_eq_true'] at hready
  by_contra hdisposing
  rw [h.closed (Bool.eq_true_of_not_eq_false hdisposing) hready.1] at hready
  cases hready.2

/-- The critical section of `when_all`. -/
theorem Guarded.whenAllLocked (h : s.Guarded) (hi : s.stack i = .whenAllLocked :: rest)
    (hstep : s.goOn i rest .whenAllLocked = some s') : s'.Guarded := by
  obtain rfl := Option.some.inj hstep
  have hreturn {j} : .whenAllReturn ∈ update s.stack i
      ((if s.scope.isReady then .completeInternal true else .whenAllUnlock) :: rest) j →
      .whenAllReturn ∈ s.stack j := fun hj => by
    refine mem_of_mem_update hi hj fun hg => ?_
    rcases List.mem_cons.1 hg with hg | hg
    · split_ifs at hg
    · exact List.mem_cons_of_mem _ hg
  refine ⟨h.locked.hold hi rfl (by split_ifs <;> rfl), fun _ hp => ?_, fun _ => rfl,
    fun _ _ _ _ => rfl, h.listeners, fun j hj => ?_⟩
  · simp only [PendingTaskScope.dispose] at hp
    simp [PendingTaskScope.dispose, PendingTaskScope.isReady, hp]
  · have hnone : s.obtained = false ∧ ∀ k, .whenAllReturn ∉ s.stack k := by
      by_cases hready : s.scope.isReady = true
      · have hdisposing := h.isReady hready
        refine ⟨?_, fun k hk => ?_⟩
        · by_contra hobtained
          cases hdisposing.symm.trans (h.obtained (Bool.eq_true_of_not_eq_false hobtained))
        · cases hdisposing.symm.trans (h.disposed k _ hk rfl)
      · refine h.first j (mem_of_mem_update hi hj fun hg => ?_)
        rw [if_neg hready] at hg
        simpa using hg
    exact ⟨hnone.1, fun k hk => hnone.2 k (hreturn hk)⟩

omit [DecidableEq ι] [DecidableEq τ] in
/-- `complete_internal` runs nothing when `when_all` calls it. -/
theorem Guarded.listeners_eq_nil (h : s.Guarded) (hi : .completeInternal true ∈ s.stack i) :
    s.listeners = [] := by
  by_contra hne
  cases (h.first i hi).1.symm.trans (h.listeners hne)

theorem Guarded.completeInternal (h : s.Guarded) {fromWhenAll : Bool}
    (hi : s.stack i = .completeInternal fromWhenAll :: rest)
    (hstep : s.goOn i rest (.completeInternal fromWhenAll) = some s') : s'.Guarded := by
  obtain rfl := Option.some.inj hstep
  cases fromWhenAll with
  | false =>
    refine h.of_old hi rfl (fun g hg hdisposed => ?_)
      (h.locked.goOn hi rfl (by simp) fun hrest => ?_)
      h.closed id rfl fun hne => absurd rfl hne
    · rcases List.mem_cons.1 hg with rfl | hg
      · cases hdisposed
      · exact List.mem_cons_of_mem _ hg
    · exact free_cons.2 ⟨rfl, hrest⟩
  | true =>
    have htop : .completeInternal true ∈ s.stack i := by simp [hi]
    have hmem {j} {g : ScopeFrame τ} (hg : g ≠ .run s.listeners) (hg' : g ≠ .whenAllUnlock) :
        g ∈ update s.stack i (.run s.listeners :: .whenAllUnlock :: rest) j → g ∈ s.stack j :=
      fun hj => mem_of_mem_update hi hj fun hfs => by
        simp only [List.mem_cons, hg, hg', false_or] at hfs
        exact List.mem_cons_of_mem _ hfs
    have hdisposing := h.disposed i _ htop rfl
    obtain ⟨hmutex, hrest⟩ := h.locked.of_holds hi rfl
    refine ⟨h.locked.update (fun _ _ => Iff.rfl) (fun _ => ?_) fun hne => absurd hmutex hne,
      h.closed, h.obtained, fun _ _ _ _ => hdisposing, fun hne => absurd rfl hne, fun j hj => ?_⟩
    · rw [h.listeners_eq_nil htop]
      exact ⟨.whenAllUnlock, rest, rfl, hrest, .inr rfl⟩
    · obtain ⟨hnone, hreturn⟩ := h.first j (hmem (by simp) (by simp) hj)
      exact ⟨hnone, fun k hk => hreturn k (hmem (by simp) (by simp) hk)⟩

/-- A `when_all` leaves its critical section. -/
theorem Guarded.whenAllUnlock (h : s.Guarded) (hi : s.stack i = .whenAllUnlock :: rest)
    (hstep : s.goOn i rest .whenAllUnlock = some s') : s'.Guarded := by
  obtain rfl := Option.some.inj hstep
  have hdisposing := h.disposed i .whenAllUnlock (by simp [hi]) rfl
  obtain ⟨hmutex, hrest⟩ := h.locked.of_holds hi rfl
  refine ⟨h.locked.unlock hi rfl fun hrest => free_cons.2 ⟨rfl, hrest⟩, h.closed, h.obtained,
    fun _ _ _ _ => hdisposing, h.listeners, fun j hj => ?_⟩
  -- another `complete_internal` would hold the mutex too
  have hj' : .completeInternal true ∈ s.stack j := mem_of_mem_update hi hj fun hg => by
    simpa using hg
  by_cases hji : j = i
  · subst hji
    rw [hi] at hj'
    have hmem : .completeInternal true ∈ rest := by simpa using hj'
    cases hrest _ hmem
  · have hfree := (h.locked j).2 fun he => hji (Option.some.inj (he.symm.trans hmutex))
    cases hfree _ hj'

/-- A `when_all` returns the task of the scope. -/
theorem Guarded.whenAllReturn (h : s.Guarded) (hi : s.stack i = .whenAllReturn :: rest)
    (hstep : s.goOn i rest .whenAllReturn = some s') : s'.Guarded := by
  obtain rfl := Option.some.inj hstep
  have htop : .whenAllReturn ∈ s.stack i := by simp [hi]
  have hdisposing := h.disposed i _ htop rfl
  refine ⟨h.locked.goOn hi rfl (by simp) id, h.closed, fun _ => hdisposing,
    fun _ _ _ _ => hdisposing, fun _ => rfl, fun j hj => ?_⟩
  have hj' : .completeInternal true ∈ s.stack j :=
    mem_of_mem_update hi hj (List.mem_cons_of_mem _)
  exact absurd htop ((h.first j hj').2 i)

theorem Guarded.call (h : s.Guarded) (hi : s.stack i = .user :: rest) {c : ScopeCall τ E R}
    (hstep : s.call i rest c = some s') : s'.Guarded := by
  have hpush {g : ScopeFrame τ} (hg : g.holds = false) (hg' : g.disposed = false) :
      ∀ f ∈ g :: .user :: rest, f.holds = false ∧ f.disposed = false ∨ f ∈ rest :=
    List.forall_mem_cons.2 ⟨.inl ⟨hg, hg'⟩, List.forall_mem_cons.2 ⟨.inl ⟨rfl, rfl⟩, fun _ => .inr⟩⟩
  cases c with
  | add task =>
    cases hstep
    exact h.setStack hi rfl (by simp) (hpush rfl rfl) rfl rfl rfl rfl h.listeners
  | whenAll =>
    cases hstep
    exact h.setStack hi rfl (by simp) (hpush rfl rfl) rfl rfl rfl rfl h.listeners
  | completeTask task result =>
    obtain ⟨-, hs'⟩ := Option.ite_none_right_eq_some.1 hstep
    cases hs'
    exact h.setStack hi rfl (by simp) (hpush rfl rfl) rfl rfl rfl rfl h.listeners
  | thenTask task =>
    obtain rfl := Option.some.inj hstep
    split_ifs
    · exact h.setStack hi rfl (by simp) (hpush rfl rfl) rfl rfl rfl rfl h.listeners
    · exact ⟨h.locked, h.closed, h.obtained, h.disposed, h.listeners, h.first⟩
  | thenWhenAll =>
    obtain ⟨hobtained, hs'⟩ := Option.ite_none_right_eq_some.1 hstep
    obtain rfl := Option.some.inj hs'
    split_ifs
    · exact h.setStack hi rfl (by simp) (hpush rfl rfl) rfl rfl rfl rfl h.listeners
    · exact ⟨h.locked, h.closed, h.obtained, h.disposed, fun _ => hobtained, h.first⟩
  | ret =>
    cases hstep
    exact h.setStack hi rfl (by simp) (fun g hg => .inr hg) rfl rfl rfl rfl h.listeners

theorem Guarded.goOn (h : s.Guarded) (hi : s.stack i = f :: rest)
    (hstep : s.goOn i rest f = some s') : s'.Guarded := by
  cases f with
  | user => cases hstep
  | add task => exact h.lock hi rfl rfl hstep
  | addLocked task =>
    obtain ⟨result, hadd, rfl⟩ := Option.map_eq_some_iff.1 hstep
    cases result with
    | error e => exact h.unlock hi rfl (fun g hg => .inr hg) h.closed id
    | ok scope =>
      obtain ⟨hdisposing, rfl⟩ := PendingTaskScope.add_eq_ok hadd
      refine h.unlock hi rfl (List.forall_mem_cons.2 ⟨.inl ⟨rfl, rfl⟩, fun _ => .inr⟩)
        (fun hd => ?_) id
      cases hdisposing.symm.trans hd
  | addThen task =>
    obtain rfl := Option.some.inj hstep
    split_ifs
    · exact h.setStack hi rfl (by simp) (List.forall_mem_cons.2 ⟨.inl ⟨rfl, rfl⟩, fun _ => .inr⟩)
        rfl rfl rfl rfl h.listeners
    · exact h.setStack hi rfl (by simp) (fun _ => .inr) rfl rfl rfl rfl h.listeners
  | report task => exact h.lock hi rfl rfl hstep
  | reportLocked task =>
    obtain ⟨result, -, rfl⟩ := Option.map_eq_some_iff.1 hstep
    refine h.unlock hi rfl ?_ (fun hd hp => ?_) id
    · split_ifs
      · exact List.forall_mem_cons.2 ⟨.inl ⟨rfl, rfl⟩, fun _ => .inr⟩
      · exact fun _ => .inr
    · simp only [PendingTaskScope.report] at hd hp ⊢
      simp [hd, hp]
  | whenAll => exact h.lock hi rfl rfl hstep
  | whenAllLocked => exact h.whenAllLocked hi hstep
  | completeInternal fromWhenAll => exact h.completeInternal hi hstep
  | whenAllUnlock => exact h.whenAllUnlock hi hstep
  | whenAllReturn => exact h.whenAllReturn hi hstep
  | run cs =>
    cases cs with
    | nil =>
      cases hstep
      exact h.of_old hi rfl (fun g hg _ => List.mem_cons_of_mem _ hg) (h.locked.run_nil hi)
        h.closed id rfl
        h.listeners
    | cons c cs =>
      cases hstep
      refine h.setStack hi rfl (by simp) (fun g hg => ?_) rfl rfl rfl rfl h.listeners
      rcases List.mem_cons.1 hg with rfl | hg
      · exact .inl (by cases c <;> exact ⟨rfl, rfl⟩)
      · rcases List.mem_cons.1 hg with rfl | hg
        · exact .inl ⟨rfl, rfl⟩
        · exact .inr hg

theorem Guarded.step (h : s.Guarded) {a : ScopeStackAction ι τ E R}
    (hstep : s.step a = some s') : s'.Guarded := by
  cases a with
  | call i c =>
    simp only [ScopeStacks.step] at hstep
    split at hstep
    · rename_i rest hi
      exact h.call hi hstep
    · cases hstep
  | goOn i =>
    simp only [ScopeStacks.step] at hstep
    split at hstep
    · rename_i f rest hi
      exact h.goOn hi hstep
    · cases hstep

/-- **The scope runs no user code under its lock.** In every state of a run, in whose steps user
code on any number of threads adds tasks, completes them, calls `when_all` and attaches
continuations that do the same, and for the innermost call of any thread: if it is
`complete_internal` and the thread holds the mutex then the task of the scope has no continuation;
and if it is about to lock the mutex, or is user code, then the thread does not hold it. -/
theorem never_locks_twice (h : Reach step anyStep ({} : ScopeStacks ι τ E R) s)
    (hi : s.stack i = f :: rest) :
    (∀ fromWhenAll, f = .completeInternal fromWhenAll → s.mutex = some i → s.listeners = []) ∧
    (f.locks = true → s.mutex ≠ some i) ∧ (f = .user → s.mutex ≠ some i) := by
  have hs : s.Guarded := h.invariant .initial fun _ _ _ ha _ hstep => ha.step hstep
  refine ⟨fun fromWhenAll hf hmutex => ?_, fun hf => ?_, fun hf => ?_⟩
  · subst hf
    cases fromWhenAll with
    | false => exact absurd hmutex (hs.locked.of_not_holds hi rfl (by simp)).1
    | true => exact hs.listeners_eq_nil (hi ▸ List.mem_cons_self)
  · obtain ⟨hf', hrun⟩ := ScopeFrame.not_holds_of_locks hf
    exact (hs.locked.of_not_holds hi hf' hrun).1
  · subst hf
    exact (hs.locked.of_not_holds hi rfl (by simp)).1

/-- The continuation of a task that `when_all` returned calls `when_all` again. -/
theorem never_locks_twice_again : ∃ s : ScopeStacks ℕ ℕ ℤ Unit,
    Reach step anyStep {} s ∧ s.stack 0 = [.whenAll, .user, .run [], .run [], .user] ∧
      s.mutex ≠ some 0 := by
  have hrun : (run step ({} : ScopeStacks ℕ ℕ ℤ Unit)
      [.call 0 (.add 4), .goOn 0, .goOn 0, .goOn 0, .call 0 .whenAll, .goOn 0, .goOn 0, .goOn 0,
       .goOn 0, .call 0 .thenWhenAll, .call 0 (.completeTask 4 (.ok ())), .goOn 0, .goOn 0, .goOn 0,
       .goOn 0, .goOn 0, .call 0 .whenAll]).map (fun s => s.stack 0) =
      some [.whenAll, .user, .run [], .run [], .user] := by decide
  obtain ⟨s, hreach, hstack⟩ := exists_reach_of_run hrun
  exact ⟨s, hreach, hstack, (never_locks_twice hreach hstack).2.1 rfl⟩

end ScopeStacks

end Arcana.Threading
