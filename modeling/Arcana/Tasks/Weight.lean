import Mathlib.Algebra.GroupWithZero.Nat
import Mathlib.Algebra.Order.BigOperators.Group.Finset
import Mathlib.Algebra.Order.BigOperators.Group.List
import Mathlib.Data.List.InsertIdx
import Arcana.Tasks.Invariant

/-!
# Weights

Counting and potential arguments about the machine all have one form: everything a state consists
of, that is each payload, each call under way and each queued callable, is given a weight, and a
step changes the total only by the weights of what it touches. `Weight` gives the weights; the
lemmas here say how the total changes when a step moves on the stack, writes one payload, takes from
or puts into the queue, or allocates. The equations are additive, so that they hold without any
subtraction.

* `Weight` is a weight, and `State.weight` the weight of a state.
* `State.Shifts` says that a step replaces parts of the weight by others. There is a lemma for each
  kind of step: `State.weight_move`, `State.weight_write`, `State.weight_rewrite`,
  `State.weight_take`, `State.weight_put` and `State.weight_alloc`.
-/

namespace Arcana.Tasks

open Function

variable {T O U V E : Type*}

/-- The weight of the parts of a state. -/
structure Weight (U V E : Type*) where
  payload : ℕ → Payload U V E → ℕ
  frame : Frame U V E → ℕ
  callable : ℕ × Option ℕ → ℕ

/-- Two sums whose terms differ in one place. -/
theorem sum_add_of_eq_off {ι : Type*} [DecidableEq ι] {f g : ι → ℕ} {s : Finset ι} {i : ι}
    (hi : i ∈ s) (h : ∀ j, j ≠ i → f j = g j) : ∑ j ∈ s, f j + g i = ∑ j ∈ s, g j + f i := by
  have hf := Finset.sum_erase_add s f hi
  have hg := Finset.sum_erase_add s g hi
  have hfg : ∑ j ∈ s.erase i, f j = ∑ j ∈ s.erase i, g j :=
    Finset.sum_congr rfl fun j hj => h j (Finset.ne_of_mem_erase hj)
  omega

namespace Weight

/-- The weight of a call stack. -/
def frames (w : Weight U V E) (fs : List (Frame U V E)) : ℕ := (fs.map w.frame).sum

/-- The weight of the queue. -/
def callables (w : Weight U V E) (cs : List (ℕ × Option ℕ)) : ℕ := (cs.map w.callable).sum

/-- The weight of the payloads with addresses in `ps`. -/
def payloads (w : Weight U V E) (heap : ℕ → Payload U V E) (ps : Finset ℕ) : ℕ :=
  ∑ p ∈ ps, w.payload p (heap p)

@[simp] theorem frames_nil (w : Weight U V E) : w.frames [] = 0 := rfl

@[simp] theorem frames_cons (w : Weight U V E) (f : Frame U V E) (fs : List (Frame U V E)) :
    w.frames (f :: fs) = w.frame f + w.frames fs := by
  simp [frames]

@[simp] theorem callables_nil (w : Weight U V E) : w.callables [] = 0 := rfl

@[simp] theorem callables_append (w : Weight U V E) (cs : List (ℕ × Option ℕ))
    (c : ℕ × Option ℕ) : w.callables (cs ++ [c]) = w.callables cs + w.callable c := by
  simp [callables]

theorem callables_eraseIdx (w : Weight U V E) {cs : List (ℕ × Option ℕ)} {i : ℕ}
    {c : ℕ × Option ℕ} (h : cs[i]? = some c) :
    w.callables (cs.eraseIdx i) + w.callable c = w.callables cs := by
  obtain ⟨hi, rfl⟩ := List.getElem?_eq_some_iff.1 h
  have hlen : i < (cs.map w.callable).length := by simpa using hi
  have hsum := List.CommMonoid.add_sum_eraseIdx hlen
  rw [List.getElem_map] at hsum
  rw [callables, callables, ← List.eraseIdx_map, add_comm]
  exact hsum

theorem payloads_update (w : Weight U V E) (heap : ℕ → Payload U V E) (x : Payload U V E)
    {ps : Finset ℕ} {p : ℕ} (hp : p ∈ ps) :
    w.payloads (update heap p x) ps + w.payload p (heap p) =
      w.payloads heap ps + w.payload p x := by
  have hne (q : ℕ) (hq : q ≠ p) : w.payload q (update heap p x q) = w.payload q (heap q) := by
    rw [update_of_ne hq]
  have hsum := sum_add_of_eq_off hp hne
  rw [update_self] at hsum
  exact hsum

/-- Writing a payload of the same weight. -/
theorem payloads_update_of_eq (w : Weight U V E) {heap : ℕ → Payload U V E} {x : Payload U V E}
    {p : ℕ} (hx : w.payload p x = w.payload p (heap p)) (ps : Finset ℕ) :
    w.payloads (update heap p x) ps = w.payloads heap ps := by
  refine Finset.sum_congr rfl fun q _ => ?_
  rw [update_apply]
  split
  · rename_i e
    rw [e, hx]
  · rfl

/-- The weight of the fresh payloads is added. -/
theorem payloads_range_add (w : Weight U V E) {heap heap' : ℕ → Payload U V E} {n : ℕ}
    (h : ∀ p < n, heap' p = heap p) (k : ℕ) :
    w.payloads heap' (Finset.range (n + k)) =
      w.payloads heap (Finset.range n) + ∑ i ∈ Finset.range k,
      w.payload (n + i) (heap' (n + i)) := by
  rw [payloads, Finset.sum_range_add]
  congr 1
  exact Finset.sum_congr rfl fun p hp => by rw [h p (Finset.mem_range.1 hp)]

end Weight

section

variable [Fintype T]

/-- The weight of all call stacks. -/
def State.stackWeight (s : State T U V E) (w : Weight U V E) : ℕ := ∑ t, w.frames (s.stack t)

/-- The weight of a state. -/
def State.weight (s : State T U V E) (w : Weight U V E) : ℕ :=
  w.payloads s.heap (Finset.range s.next) + s.stackWeight w + w.callables s.queue

/-- The weight of a state in which nothing is under way or queued. -/
theorem State.weight_eq_zero {w : Weight U V E} {s : State T U V E} (stack : ∀ t, s.stack t = [])
    (queue : s.queue = []) (payload : ∀ p < s.next, w.payload p (s.heap p) = 0) :
    s.weight w = 0 := by
  have hpayloads : w.payloads s.heap (Finset.range s.next) = 0 :=
    Finset.sum_eq_zero fun p hp => payload p (Finset.mem_range.1 hp)
  simp [weight, stackWeight, hpayloads, stack, queue]

/-- Weights that agree on the parts of the state. -/
theorem State.weight_congr {w w' : Weight U V E} {s : State T U V E}
    (payload : ∀ p < s.next, w.payload p (s.heap p) = w'.payload p (s.heap p))
    (frame : ∀ t, ∀ f ∈ s.stack t, w.frame f = w'.frame f)
    (callable : ∀ c ∈ s.queue, w.callable c = w'.callable c) : s.weight w = s.weight w' := by
  have hpayloads : w.payloads s.heap (Finset.range s.next) =
      w'.payloads s.heap (Finset.range s.next) :=
    Finset.sum_congr rfl fun p hp => payload p (Finset.mem_range.1 hp)
  have hstack : s.stackWeight w = s.stackWeight w' :=
    Finset.sum_congr rfl fun t _ => congrArg List.sum (List.map_congr_left (frame t))
  have hqueue : w.callables s.queue = w'.callables s.queue :=
    congrArg List.sum (List.map_congr_left callable)
  rw [weight, weight, hpayloads, hstack, hqueue]

theorem WorkInput.weight [ErrorTraits E] (w : Weight U V E) {s s₁ : State T U V E} {p : ℕ}
    {parent : Option ℕ} {x : Expected V E ⊕ U} (h : WorkInput s p parent s₁ x) :
    s₁.weight w = s.weight w := by
  obtain ⟨heap, next⟩ := h.heap_next
  have same := h.sameRest
  rw [State.weight, State.weight, State.stackWeight, State.stackWeight, heap, next, same.stack,
    same.queue]

/-- Allocation adds the weight of the fresh payloads. -/
theorem State.weight_alloc (w : Weight U V E) {s s' : State T U V E} (k : ℕ)
    (next : s'.next = s.next + k) (heap : ∀ p < s.next, s'.heap p = s.heap p)
    (stack : s'.stack = s.stack) (queue : s'.queue = s.queue) :
    s'.weight w = s.weight w +
      ∑ i ∈ Finset.range k, w.payload (s.next + i) (s'.heap (s.next + i)) := by
  rw [weight, weight, stackWeight, stackWeight, next, stack, queue, w.payloads_range_add heap]
  omega

theorem State.weight_makeSource (w : Weight U V E) (s : State T U V E) :
    s.makeSource.weight w = s.weight w + w.payload s.next {} := by
  have hlt (p : ℕ) (hp : p < s.next) : s.makeSource.heap p = s.heap p :=
    update_of_ne (by omega) ..
  rw [weight_alloc w 1 rfl hlt rfl rfl]
  simp

/-- A payload and a call are parts of the state. -/
theorem State.payload_add_frame_le (w : Weight U V E) (s : State T U V E) {p : ℕ} (hp : p < s.next)
    {t : T} {f : Frame U V E} (hf : f ∈ s.stack t) :
    w.payload p (s.heap p) + w.frame f ≤ s.weight w := by
  have hpayload : w.payload p (s.heap p) ≤ w.payloads s.heap (Finset.range s.next) :=
    Finset.single_le_sum (fun q _ => Nat.zero_le (w.payload q (s.heap q))) (Finset.mem_range.2 hp)
  have hframe : w.frame f ≤ w.frames (s.stack t) :=
    List.single_le_sum (by simp) _ (List.mem_map_of_mem hf)
  have hstack : w.frames (s.stack t) ≤ s.stackWeight w :=
    Finset.single_le_sum (fun t' _ => Nat.zero_le (w.frames (s.stack t'))) (Finset.mem_univ t)
  rw [weight]
  omega

/-- Two payloads are parts of the state. -/
theorem State.payload_add_payload_le (w : Weight U V E) (s : State T U V E) {p q : ℕ}
    (hp : p < s.next) (hq : q < s.next) (hne : p ≠ q) :
    w.payload p (s.heap p) + w.payload q (s.heap q) ≤ s.weight w := by
  have hpair : w.payloads s.heap {p, q} ≤ w.payloads s.heap (Finset.range s.next) := by
    refine Finset.sum_le_sum_of_subset fun x hx => Finset.mem_range.2 ?_
    rcases Finset.mem_insert.1 hx with rfl | hx
    · exact hp
    · rw [Finset.mem_singleton.1 hx]
      exact hq
  rw [Weight.payloads, Finset.sum_pair hne] at hpair
  rw [weight]
  omega

/-- Two changes of the weight, one after the other. -/
theorem State.weight_trans {w : Weight U V E} {s s₁ s' : State T U V E} {a b c d : ℕ}
    (h₁ : s₁.weight w + c = s.weight w + d) (h₂ : s'.weight w + (a + d) = s₁.weight w + (b + c)) :
    s'.weight w + a = s.weight w + b := by
  omega

theorem State.weight_trans_le {w : Weight U V E} {s s₁ s' : State T U V E} {a b c d : ℕ}
    (h₁ : s₁.weight w + c ≤ s.weight w + d)
    (h₂ : s'.weight w + (a + d) ≤ s₁.weight w + (b + c)) :
    s'.weight w + a ≤ s.weight w + b := by
  omega

variable [DecidableEq T] {s s' : State T U V E} {t : T}

theorem State.stackWeight_update (w : Weight U V E) {fs : List (Frame U V E)}
    (h : s'.stack = update s.stack t fs) :
    s'.stackWeight w + w.frames (s.stack t) = s.stackWeight w + w.frames fs := by
  have hne (t' : T) (ht' : t' ≠ t) : w.frames (s'.stack t') = w.frames (s.stack t') := by
    rw [h, update_of_ne ht']
  have hsum := sum_add_of_eq_off (Finset.mem_univ t) hne
  rw [h, update_self, ← h] at hsum
  exact hsum

/-- A call on top of one stack and a call elsewhere are different parts of the state. -/
theorem State.frames_add_frame_le (w : Weight U V E) {top rest : List (Frame U V E)}
    (hs : s.stack t = top ++ rest) {t' : T} {f : Frame U V E}
    (hf : f ∈ update s.stack t rest t') : w.frames top + w.frame f ≤ s.stackWeight w := by
  let below : State T U V E := s.setStack t rest
  have hsplit : w.frames (top ++ rest) = w.frames top + w.frames rest := by
    simp [Weight.frames]
  have hbelow : below.stackWeight w + w.frames (s.stack t) = s.stackWeight w + w.frames rest :=
    stackWeight_update w rfl
  have hframe : w.frame f ≤ w.frames (below.stack t') :=
    List.single_le_sum (by simp) _ (List.mem_map_of_mem hf)
  have hstack : w.frames (below.stack t') ≤ below.stackWeight w :=
    Finset.single_le_sum (fun t' _ => Nat.zero_le (w.frames (below.stack t'))) (Finset.mem_univ t')
  rw [hs, hsplit] at hbelow
  omega

/-! ### One lemma for each kind of step -/

/-- The step replaces parts of the weight `before` by parts of the weight `after`. -/
def State.Shifts (w : Weight U V E) (s s' : State T U V E) (before after : ℕ) : Prop :=
  s'.weight w + before = s.weight w + after

omit [DecidableEq T] in
/-- What a step does to the weight and to what the caller counts besides. -/
theorem State.Shifts.eq {w : Weight U V E} {before after a b : ℕ} (h : s.Shifts w s' before after)
    (local_eq : after + a = before + b) : s'.weight w + a = s.weight w + b := by
  rw [Shifts] at h
  omega

omit [DecidableEq T] in
theorem State.Shifts.le {w : Weight U V E} {before after a b : ℕ} (h : s.Shifts w s' before after)
    (local_le : after + a ≤ before + b) : s'.weight w + a ≤ s.weight w + b := by
  rw [Shifts] at h
  omega

omit [DecidableEq T] in
theorem State.Shifts.lt {w : Weight U V E} {before after : ℕ} (h : s.Shifts w s' before after)
    (local_lt : after < before) : s'.weight w < s.weight w := by
  rw [Shifts] at h
  omega

variable (w : Weight U V E) {fs : List (Frame U V E)}

/-- A step that moves on the stack. -/
theorem State.weight_move (heap : s'.heap = s.heap) (next : s'.next = s.next)
    (stack : s'.stack = update s.stack t fs) (queue : s'.queue = s.queue) :
    s.Shifts w s' (w.frames (s.stack t)) (w.frames fs) := by
  have := stackWeight_update w stack
  rw [Shifts, weight, weight, heap, next, queue]
  omega

/-- A step that writes one payload. -/
theorem State.weight_write {p : ℕ} {x : Payload U V E} (hp : p < s.next)
    (heap : s'.heap = update s.heap p x) (next : s'.next = s.next)
    (stack : s'.stack = update s.stack t fs) (queue : s'.queue = s.queue) :
    s.Shifts w s' (w.frames (s.stack t) + w.payload p (s.heap p))
      (w.frames fs + w.payload p x) := by
  have := stackWeight_update w stack
  have := w.payloads_update s.heap x (Finset.mem_range.2 hp)
  rw [Shifts, weight, weight, heap, next, queue]
  omega

/-- A step that writes one payload and leaves its weight alone. -/
theorem State.weight_rewrite {p : ℕ} {x : Payload U V E} (heap : s'.heap = update s.heap p x)
    (next : s'.next = s.next) (stack : s'.stack = update s.stack t fs)
    (queue : s'.queue = s.queue) (hx : w.payload p x = w.payload p (s.heap p)) :
    s.Shifts w s' (w.frames (s.stack t)) (w.frames fs) := by
  have := stackWeight_update w stack
  rw [Shifts, weight, weight, heap, next, queue, w.payloads_update_of_eq hx]
  omega

/-- A step that takes a callable from the queue. -/
theorem State.weight_take {i : ℕ} {c : ℕ × Option ℕ} (hq : s.queue[i]? = some c)
    (heap : s'.heap = s.heap) (next : s'.next = s.next) (stack : s'.stack = update s.stack t fs)
    (queue : s'.queue = s.queue.eraseIdx i) :
    s.Shifts w s' (w.frames (s.stack t) + w.callable c) (w.frames fs) := by
  have := stackWeight_update w stack
  have := w.callables_eraseIdx hq
  rw [Shifts, weight, weight, heap, next, queue]
  omega

/-- A step that puts a callable into the queue. -/
theorem State.weight_put {c : ℕ × Option ℕ} (heap : s'.heap = s.heap) (next : s'.next = s.next)
    (stack : s'.stack = update s.stack t fs) (queue : s'.queue = s.queue ++ [c]) :
    s.Shifts w s' (w.frames (s.stack t)) (w.frames fs + w.callable c) := by
  have := stackWeight_update w stack
  rw [Shifts, weight, weight, heap, next, queue, Weight.callables_append]
  omega

end

end Arcana.Tasks
