import Arcana.Foundations.Lifetimes
import Arcana.Foundations.Transition

/-!
# `inplace_function`

A function object with its target in a buffer of its own. It has a pointer to the entry of the
target, and one to the function that destroys, copies and moves what is in the buffer, which knows
its class. A move takes the entry from the source but leaves it the manager, so that what was moved
from is still destroyed.

The variables of a program are modelled together, with the objects in their buffers. The steps are
what is done with a variable: constructors, assignments, calls and the destructor. A constructor of
a functor that is copied, moved or stored may throw. What is undefined in the language is a fault
here.

A function is copied from a const lvalue and moved from an rvalue. An assignment of an lvalue that
is not const is not among the steps: it is taken by `operator=(Callable&&)`, which moves the source
into the buffer as a functor like any other, when it is small enough, and else does not compile.
What becomes of a functor outside of the functions that one is filled from is not followed either.

The specification (`Values`) has no buffers, objects or managers: a variable is empty or has a
target.

* `Functions.step`: what a program does with its functions.
* `Values.step`: the same for variables that hold plain values.
* `InplaceFunction.Sound`, `Functions.Follows`: what holds between the steps.
* `Functions.keeps_values`: the functions are values, each functor fits its buffer and is destroyed
  once, and when a swap goes wrong.
-/

namespace Arcana.Functional

open Foundations

/-! ## The functions -/

/-- What the compiler knows of a class of functors. -/
structure FunctorClass (S A R : Type*) where
  size : ℕ
  alignment : ℕ
  copyable : Bool
  call : S → A → R × S
  /-- What a move leaves behind. -/
  movedFrom : S → S

/-- The parameters of the template. -/
structure Parameters where
  capacity : ℕ
  alignment : ℕ
  copyable : Bool
  deriving DecidableEq

/-- A functor in a buffer. -/
structure Stored (κ S : Type*) where
  id : ℕ
  cls : κ
  state : S

/-- Where `m_InvokeFctPtr` points. -/
inductive Entry (κ P : Type*)
  | defaultFunction
  /-- A function pointer, in place of an entry. -/
  | pointer (p : P)
  /-- `invoke` of a class. -/
  | functor (cls : κ)

/-- An `inplace_function`. The manager is the class whose `manage_function` it is. -/
structure InplaceFunction (κ P S : Type*) where
  invoke : Entry κ P := .defaultFunction
  manager : Option κ := none
  data : Option (Stored κ S) := none

/-- What a variable is constructed or assigned from. -/
inductive Source (ι κ P S : Type*)
  /-- Nothing, or a null pointer. -/
  | null
  | pointer (p : P)
  | functor (cls : κ) (state : S)
  /-- A const lvalue. -/
  | copy (w : ι)
  /-- An rvalue. -/
  | move (w : ι)

inductive FunctionAction (ι κ P S A : Type*)
  | construct (v : ι) (source : Source ι κ P S) (throws : Bool)
  | assign (v : ι) (source : Source ι κ P S) (throws : Bool)
  | destroy (v : ι)
  | call (v : ι) (argument : A)
  /-- `operator bool` -/
  | test (v : ι)
  | swap (v w : ι)

/-- What is seen of the functions. A call without a result throws `bad_function_call`. -/
inductive Seen (ι A R : Type*)
  | called (v : ι) (argument : A) (result : Option R)
  | tested (v : ι) (result : Bool)
  deriving DecidableEq

inductive Fault
  /-- A functor is used where there is none. -/
  | notAlive
  /-- A functor is constructed where there is one. -/
  | overwritten
  /-- A functor is used as one of another class. -/
  | confused
  deriving DecidableEq

/-- The variables of a program. The objects that were constructed are counted, and those that were
destroyed are a history. -/
structure Functions (ι κ P S A R : Type*) where
  vars : ι → Option (InplaceFunction κ P S) := fun _ => none
  count : ℕ := 0
  destroyed : List ℕ := []
  log : List (Seen ι A R) := []
  fault : Option Fault := none

section Model

variable {ι κ P S A R : Type*}

namespace InplaceFunction

/-- The call of a manager that destroys. -/
def clear [DecidableEq κ] (f : InplaceFunction κ P S) :
    Except Fault (InplaceFunction κ P S × List ℕ) :=
  match f.manager with
  | none => .ok ({ f with invoke := .defaultFunction }, [])
  | some k =>
    match f.data with
    | none => .error .notAlive
    | some object => if object.cls = k then .ok ({}, [object.id]) else .error .confused

/-- `operator bool` -/
def assigned (f : InplaceFunction κ P S) : Bool :=
  match f.invoke with
  | .defaultFunction => false
  | _ => true

end InplaceFunction

section Managers

variable [DecidableEq κ]

/-- The call of a manager that copies or moves: what is in the two buffers afterwards. -/
def manage (classes : κ → FunctorClass S A R) (k : κ) (moves : Bool)
    (dataPtr fromPtr : Option (Stored κ S)) (id : ℕ) : Except Fault (Stored κ S × Stored κ S) :=
  match fromPtr, dataPtr with
  | none, _ => .error .notAlive
  | some _, some _ => .error .overwritten
  | some source, none =>
    if source.cls = k then
      .ok ({ source with id },
        if moves then { source with state := (classes k).movedFrom source.state } else source)
    else
      .error .confused

/-- The overload of `move` for two buffers: what is in the first and in the second one afterwards,
and the number of functors. It passes the first one, which it is to move from, as the one to
construct in. -/
def moveBuffer (classes : κ → FunctorClass S A R) (manager : Option κ)
    (first second : Option (Stored κ S))
    (id : ℕ) : Except Fault (Option (Stored κ S) × Option (Stored κ S) × ℕ) :=
  match manager with
  | none => if second.isSome then .error .overwritten else .ok (first, none, id)
  | some k =>
    (manage classes k true first second id).map fun result => (some result.1, some result.2, id + 1)

/-- The three moves of `swap`: what is in the buffers of the two functions afterwards, and the
number of functors. -/
def swapBuffers (classes : κ → FunctorClass S A R) (f other : InplaceFunction κ P S) (id : ℕ) :
    Except Fault (Option (Stored κ S) × Option (Stored κ S) × ℕ) := do
  let (data, temp, id) ← moveBuffer classes f.manager f.data none id
  let (otherData, data, id) ← moveBuffer classes other.manager other.data data id
  let (_, otherData, id) ← moveBuffer classes f.manager temp otherData id
  pure (data, otherData, id)

end Managers

namespace Functions

/-- A variable is given, or taken away. -/
def put [DecidableEq ι] (s : Functions ι κ P S A R) (v : ι) (f : Option (InplaceFunction κ P S)) :
    Functions ι κ P S A R :=
  { s with vars := Function.update s.vars v f }

/-- The object in the buffer of a variable. -/
def held (s : Functions ι κ P S A R) (v : ι) : Option ℕ :=
  (s.vars v).bind fun f => f.data.map (·.id)

/-- Whether a variable has a manager. -/
def managed (s : Functions ι κ P S A R) (v : ι) : Bool := (s.vars v).any fun f => f.manager.isSome

/-- The end of a step. -/
def settle (s : Functions ι κ P S A R) (result : Except Fault (Functions ι κ P S A R)) :
    Functions ι κ P S A R :=
  match result with
  | .ok s' => s'
  | .error fault => { s with fault := some fault }

variable [DecidableEq ι] [DecidableEq κ] (kind : ι → Parameters) (classes : κ → FunctorClass S A R)
  (invoke : P → A → R)

/-- The static assertions, and which of the templates there are. -/
def compiles (v : ι) : Source ι κ P S → Bool
  | .null | .pointer _ => true
  | .functor k _ =>
    (classes k).size ≤ (kind v).capacity && (kind v).alignment % (classes k).alignment = 0 &&
      (!(kind v).copyable || (classes k).copyable)
  | .copy w =>
    (kind v).copyable && (kind w).copyable && (kind w).capacity ≤ (kind v).capacity &&
      (kind v).alignment % (kind w).alignment = 0
  | .move w =>
    kind v = kind w || (kind v).copyable && (kind w).copyable &&
    (kind w).capacity ≤ (kind v).capacity &&
      (kind v).alignment % (kind w).alignment = 0

/-- Whether a functor is constructed. -/
def constructs (s : Functions ι κ P S A R) : Source ι κ P S → Bool
  | .null | .pointer _ => false
  | .functor _ _ => true
  | .copy w | .move w => s.managed w

/-- `set`, `copy` and `move`, for a variable that is cleared or not yet there. -/
def fill (s : Functions ι κ P S A R) (v : ι) (f : InplaceFunction κ P S) :
    Source ι κ P S → Option (Except Fault (Functions ι κ P S A R))
  | .null => some (.ok (s.put v (some { f with invoke := .defaultFunction, manager := none })))
  | .pointer p => some (.ok (s.put v (some { f with invoke := .pointer p, manager := none })))
  | .functor k state =>
    match f.data with
    | some _ => some (.error .overwritten)
    | none => some (.ok
      { s.put v (some { invoke := .functor k, manager := some k,
                        data := some { id := s.count, cls := k, state } })
        with count := s.count + 1 })
  | .copy w =>
    (s.vars w).map fun other =>
      match other.manager with
      | none => .ok (s.put v (some { f with invoke := other.invoke, manager := none }))
      | some k => (manage classes k false f.data other.data s.count).map fun result =>
        { s.put v (some { invoke := other.invoke, manager := some k, data := some result.1 })
          with count := s.count + 1 }
  | .move w =>
    (s.vars w).map fun other =>
      match other.manager with
      | none => .ok ((s.put v (some { f with invoke := other.invoke, manager := none })).put w
        (some { other with invoke := .defaultFunction }))
      | some k => (manage classes k true f.data other.data s.count).map fun result =>
        { (s.put v (some
              { invoke := other.invoke, manager := some k, data := some result.1 })).put w
            (some { other with invoke := .defaultFunction, data := some result.2 })
          with count := s.count + 1 }

/-- One step of a program. An exception of a constructor leaves a variable that is not there, or one
that was cleared, and the source as it is. -/
def step (s : Functions ι κ P S A R) (action : FunctionAction ι κ P S A) :
    Option (Functions ι κ P S A R) :=
  if s.fault.isSome then
    none
  else
    match action with
    | .construct v source throws =>
      match s.vars v with
      | some _ => none
      | none =>
        if compiles kind classes v source && (!throws || s.constructs source) then
          (fill classes s v {} source).map fun result =>
            s.settle (result.map fun s' => if throws then s else s')
        else
          none
    | .assign v source throws =>
      (s.vars v).bind fun f =>
        match f.clear with
        | .error fault => some (s.settle (.error fault))
        | .ok (f, gone) =>
          let s' := { s.put v (some f) with destroyed := s.destroyed ++ gone }
          if compiles kind classes v source && (!throws || s'.constructs source) then
            (fill classes s' v f source).map fun result =>
              s'.settle (result.map fun s'' => if throws then s' else s'')
          else
            none
    | .destroy v =>
      (s.vars v).map fun f => s.settle (f.clear.map fun result =>
        { s.put v none with destroyed := s.destroyed ++ result.2 })
    | .call v argument =>
      (s.vars v).map fun f =>
        match f.invoke with
        | .defaultFunction => { s with log := s.log ++ [.called v argument none] }
        | .pointer p => { s with log := s.log ++ [.called v argument (some (invoke p argument))] }
        | .functor k =>
          match f.data with
          | none => s.settle (.error .notAlive)
          | some object =>
            if object.cls = k then
              let (result, state) := (classes k).call object.state argument
              { s.put v (some { f with data := some { object with state } }) with
                log := s.log ++ [.called v argument (some result)] }
            else
              s.settle (.error .confused)
    | .test v => (s.vars v).map fun f => { s with log := s.log ++ [.tested v f.assigned] }
    | .swap v w =>
      (s.vars v).bind fun f => (s.vars w).bind fun other =>
        if kind v = kind w then
          some (s.settle ((swapBuffers classes f other s.count).map fun result =>
            { (s.put v (some { other with data := result.1 })).put w
              (some { f with data := result.2.1 }) with
              count := result.2.2 }))
        else
          none

end Functions

/-! ## The specification -/

/-- What a variable calls. -/
inductive Target (κ P S : Type*)
  | pointer (p : P)
  | functor (cls : κ) (state : S)

/-- The variables of a program, each empty or with a target. -/
structure Values (ι κ P S A R : Type*) where
  vars : ι → Option (Option (Target κ P S)) := fun _ => none
  log : List (Seen ι A R) := []

/-- A call of a target, and what becomes of it. -/
def Target.call (classes : κ → FunctorClass S A R) (invoke : P → A → R) (argument : A) :
    Target κ P S → R × Target κ P S
  | .pointer p => (invoke p argument, .pointer p)
  | .functor k state =>
    let (result, state) := (classes k).call state argument
    (result, .functor k state)

namespace Values

variable [DecidableEq ι] (classes : κ → FunctorClass S A R) (invoke : P → A → R)

def put (m : Values ι κ P S A R) (v : ι) (t : Option (Option (Target κ P S))) :
    Values ι κ P S A R :=
  { m with vars := Function.update m.vars v t }

/-- A variable takes the value of a source. What is moved from is empty. -/
def fill (m : Values ι κ P S A R) (v : ι) : Source ι κ P S → Option (Values ι κ P S A R)
  | .null => some (m.put v (some none))
  | .pointer p => some (m.put v (some (some (.pointer p))))
  | .functor k state => some (m.put v (some (some (.functor k state))))
  | .copy w => (m.vars w).map fun t => m.put v (some t)
  | .move w => (m.vars w).map fun t => (m.put v (some t)).put w (some none)

/-- One step of a program. An assignment empties the variable first. -/
def step (m : Values ι κ P S A R) : FunctionAction ι κ P S A → Option (Values ι κ P S A R)
  | .construct v source throws =>
    if (m.vars v).isSome then none else if throws then some m else m.fill v source
  | .assign v source throws =>
    if (m.vars v).isNone then none
    else if throws then some (m.put v (some none)) else (m.put v (some none)).fill v source
  | .destroy v => (m.vars v).map fun _ => m.put v none
  | .call v argument =>
    (m.vars v).map fun t =>
      match t with
      | none => { m with log := m.log ++ [.called v argument none] }
      | some t =>
        let (result, t) := t.call classes invoke argument
        { m.put v (some (some t)) with log := m.log ++ [.called v argument (some result)] }
  | .test v => (m.vars v).map fun t => { m with log := m.log ++ [.tested v t.isSome] }
  | .swap v w =>
    (m.vars v).bind fun t => (m.vars w).map fun other => (m.put v (some other)).put w (some t)

end Values

/-! ## The correspondence -/

variable {kind : ι → Parameters} {classes : κ → FunctorClass S A R} {invoke : P → A → R}

namespace InplaceFunction

/-- The target of a function. -/
def target (f : InplaceFunction κ P S) : Option (Target κ P S) :=
  match f.invoke with
  | .defaultFunction => none
  | .pointer p => some (.pointer p)
  | .functor k => f.data.map fun object => .functor k object.state

/-- A functor has its manager and its entry, or that of `DefaultFunction`, and fits. -/
structure Sound (classes : κ → FunctorClass S A R) (parameters : Parameters)
    (f : InplaceFunction κ P S) :
    Prop where
  manager : f.manager = f.data.map (·.cls)
  functor : ∀ k, f.invoke = .functor k → f.manager = some k
  pointer : ∀ p, f.invoke = .pointer p → f.manager = none
  size : ∀ object ∈ f.data, (classes object.cls).size ≤ parameters.capacity
  alignment : ∀ object ∈ f.data, (classes object.cls).alignment ∣ parameters.alignment
  copyable : ∀ object ∈ f.data, parameters.copyable = true → (classes object.cls).copyable = true

variable {f : InplaceFunction κ P S} {parameters : Parameters}

theorem Sound.empty : ({} : InplaceFunction κ P S).Sound classes parameters where
  manager := rfl
  functor := nofun
  pointer := nofun
  size := nofun
  alignment := nofun
  copyable := nofun

/-- Without a manager there is no functor. -/
theorem Sound.data_eq_none (h : f.Sound classes parameters) (hmanager : f.manager = none) :
    f.data = none :=
  Option.map_eq_none_iff.1 (h.manager.symm.trans hmanager)

theorem Sound.exists_data (h : f.Sound classes parameters) {k : κ} (hmanager : f.manager = some k) :
    ∃ object, f.data = some object ∧ object.cls = k :=
  Option.map_eq_some_iff.1 (h.manager.symm.trans hmanager)

/-- A function is assigned when it has a target. -/
theorem Sound.isSome_target (h : f.Sound classes parameters) : f.target.isSome = f.assigned := by
  obtain ⟨entry, manager, data⟩ := f
  cases entry with
  | defaultFunction | pointer p => rfl
  | functor k =>
    obtain ⟨object, rfl, -⟩ := h.exists_data (h.functor k rfl)
    rfl

/-- What `clear` leaves is empty. -/
theorem Sound.clear [DecidableEq κ] (h : f.Sound classes parameters) :
    f.clear = .ok ({}, (f.data.map (·.id)).toList) := by
  rw [InplaceFunction.clear]
  cases hmanager : f.manager with
  | none =>
    rw [h.data_eq_none hmanager]
    rfl
  | some k =>
    obtain ⟨object, hdata, hcls⟩ := h.exists_data hmanager
    rw [hdata]
    exact if_pos hcls

/-- What fits in a buffer with some parameters fits in one with others. -/
structure Converts (source dest : Parameters) : Prop where
  capacity : source.capacity ≤ dest.capacity
  alignment : source.alignment ∣ dest.alignment
  copyable : dest.copyable = true → source.copyable = true

/-- An entry without a functor is copied. -/
theorem Sound.entry (h : f.Sound classes parameters) (hmanager : f.manager = none)
    (dest : Parameters) :
    ({ invoke := f.invoke } : InplaceFunction κ P S).Sound classes dest ∧
      ({ invoke := f.invoke } : InplaceFunction κ P S).target = f.target := by
  refine ⟨⟨rfl, fun k hk => ?_, fun _ _ => rfl, nofun, nofun, nofun⟩, ?_⟩
  · exact hmanager.symm.trans (h.functor k hk)
  · rw [target, target, h.data_eq_none hmanager]

/-- A function with the functor of another one. -/
theorem Sound.stored {object : Stored κ S} (h : f.Sound classes parameters)
    (hdata : f.data = some object)
    (id : ℕ) {dest : Parameters} (hconverts : Converts parameters dest) :
    ({ invoke := f.invoke, manager := some object.cls, data := some { object with id } } :
        InplaceFunction κ P S).Sound classes dest ∧
      ({ invoke := f.invoke, manager := some object.cls, data := some { object with id } } :
        InplaceFunction κ P S).target = f.target := by
  have hmanager : f.manager = some object.cls := by rw [h.manager, hdata, Option.map_some]
  refine ⟨⟨rfl, fun k hk => ?_, fun p hp => ?_, ?_, ?_, ?_⟩, ?_⟩
  · exact hmanager.symm.trans (h.functor k hk)
  · exact hmanager.symm.trans (h.pointer p hp)
  · rintro _ ⟨⟩
    exact (h.size object hdata).trans hconverts.capacity
  · rintro _ ⟨⟩
    exact Nat.dvd_trans (h.alignment object hdata) hconverts.alignment
  · rintro _ ⟨⟩ hcopyable
    exact h.copyable object hdata (hconverts.copyable hcopyable)
  · rw [target, target, hdata]
    rfl

/-- A functor that is called or moved from changes its state. What is moved from keeps its
manager. -/
theorem Sound.change {object : Stored κ S} {entry : Entry κ P} (h : f.Sound classes parameters)
    (hdata : f.data = some object) (hentry : entry = .defaultFunction ∨ entry = f.invoke)
    (state : S) :
    ({ f with invoke := entry, data := some { object with state } } :
      InplaceFunction κ P S).Sound classes parameters where
  manager := by rw [h.manager, hdata, Option.map_some, Option.map_some]
  functor k hk := by
    rcases hentry with rfl | rfl
    · cases hk
    · exact h.functor k hk
  pointer p hp := by
    rcases hentry with rfl | rfl
    · cases hp
    · exact h.pointer p hp
  size := by
    rintro _ ⟨⟩
    exact h.size object hdata
  alignment := by
    rintro _ ⟨⟩
    exact h.alignment object hdata
  copyable := by
    rintro _ ⟨⟩
    exact h.copyable object hdata

end InplaceFunction

namespace Functions

variable {s s' : Functions ι κ P S A R} {m m' : Values ι κ P S A R}
  {action : FunctionAction ι κ P S A}
  {v w : ι} {f other : InplaceFunction κ P S} {source : Source ι κ P S}

/-- The variables of a program and their values, between two steps. -/
structure Follows (kind : ι → Parameters) (classes : κ → FunctorClass S A R)
    (s : Functions ι κ P S A R) (m : Values ι κ P S A R) : Prop where
  fault : s.fault = none
  log : m.log = s.log
  vars : ∀ v, m.vars v = (s.vars v).map InplaceFunction.target
  sound : ∀ v f, s.vars v = some f → f.Sound classes (kind v)
  objects : Accounted s.held s.count s.destroyed

theorem Follows.initial : Follows kind classes ({} : Functions ι κ P S A R) {} where
  fault := rfl
  log := rfl
  vars _ := rfl
  sound := nofun
  objects := .initial

/-- The static assertions of a copy and of a move. -/
theorem converts_of_compiles (hcompiles : compiles kind classes v source = true)
    (hw : source = .copy w ∨ source = .move w) : InplaceFunction.Converts (kind w) (kind v) := by
  have hsame {a b : Parameters} (h : a = b) : InplaceFunction.Converts b a :=
    h ▸ ⟨Nat.le_refl _, Nat.dvd_refl _, fun h => h⟩
  rcases hw with rfl | rfl
  · simp only [compiles, Bool.and_eq_true, decide_eq_true_eq] at hcompiles
    obtain ⟨⟨⟨-, hcopyable⟩, hcapacity⟩, halignment⟩ := hcompiles
    exact ⟨hcapacity, Nat.dvd_of_mod_eq_zero halignment, fun _ => hcopyable⟩
  · simp only [compiles, Bool.or_eq_true, Bool.and_eq_true, decide_eq_true_eq] at hcompiles
    rcases hcompiles with heq | ⟨⟨⟨-, hcopyable⟩, hcapacity⟩, halignment⟩
    · exact hsame heq
    · exact ⟨hcapacity, Nat.dvd_of_mod_eq_zero halignment, fun _ => hcopyable⟩

variable [DecidableEq ι]

theorem held_put (s : Functions ι κ P S A R) (v : ι) (f : Option (InplaceFunction κ P S)) :
    (s.put v f).held = Function.update s.held v (f.bind fun f => f.data.map (·.id)) := by
  funext w
  simp only [held, put, Function.update_apply]
  split
  · rfl
  · rfl

/-- A variable changes, with its value. -/
theorem Follows.put (h : Follows kind classes s m) {x : Option (InplaceFunction κ P S)}
    (hsound : ∀ f ∈ x, f.Sound classes (kind v)) {count : ℕ} {destroyed : List ℕ}
    (hobjects : Accounted (s.put v x).held count destroyed) :
    Follows kind classes { s.put v x with count, destroyed }
      (m.put v (x.map InplaceFunction.target)) where
  fault := h.fault
  log := h.log
  vars w := by
    change Function.update m.vars v _ w = (Function.update s.vars v x w).map InplaceFunction.target
    rw [Function.update_apply, Function.update_apply, h.vars]
    split
    · rfl
    · rfl
  sound w f hf := by
    change Function.update s.vars v x w = some f at hf
    rw [Function.update_apply] at hf
    split at hf
    · rename_i hw
      exact hw ▸ hsound f hf
    · exact h.sound w f hf
  objects := hobjects

/-- A variable changes, and the object in its buffer is the same. -/
theorem Follows.keep (h : Follows kind classes s m) {x : Option (InplaceFunction κ P S)}
    (hsound : ∀ f ∈ x, f.Sound classes (kind v))
    (hheld : (x.bind fun f => f.data.map (·.id)) = s.held v) :
    Follows kind classes (s.put v x) (m.put v (x.map InplaceFunction.target)) := by
  refine h.put hsound ?_
  rw [held_put, hheld, Function.update_eq_self]
  exact h.objects

/-- A functor is constructed in the buffer of a variable. -/
theorem Follows.emplace (h : Follows kind classes s m) (hheld : s.held v = none)
    (hsound : f.Sound classes (kind v)) (hid : f.data.map (·.id) = some s.count) :
    Follows kind classes { s.put v (some f) with count := s.count + 1 }
      (m.put v (some f.target)) := by
  have hobjects : Accounted (s.put v (some f)).held (s.count + 1) s.destroyed := by
    rw [held_put]
    exact (h.objects.construct hheld).congr fun w => by rw [Option.bind_some, hid]
  refine h.put (x := some f) ?_ hobjects
  rintro _ ⟨⟩
  exact hsound

/-- A variable is cleared, and is there or not. -/
theorem Follows.clear (h : Follows kind classes s m) (hf : s.vars v = some f)
    {x : Option (InplaceFunction κ P S)} (hx : ∀ f ∈ x, f = {}) :
    Follows kind classes { s.put v x with destroyed := s.destroyed ++ (f.data.map (·.id)).toList }
      (m.put v (x.map InplaceFunction.target)) := by
  have hnone : (x.bind fun f => f.data.map (·.id)) = none := by
    cases x with
    | none => rfl
    | some f =>
      rw [hx f rfl]
      rfl
  refine h.put ?_ ?_
  · intro f hmem
    rw [hx f hmem]
    exact .empty
  · have hheld : s.held v = f.data.map (·.id) := by rw [held, hf, Option.bind_some]
    rw [held_put, hnone]
    cases hdata : f.data with
    | none =>
      rw [hdata, Option.map_none] at hheld
      rw [Option.map_none, Option.toList_none, List.append_nil]
      exact h.objects.congr fun w => by rw [← hheld, Function.update_eq_self]
    | some object =>
      rw [hdata] at hheld
      exact h.objects.destroy hheld

variable [DecidableEq κ]

theorem manage_eq {k : κ} {object : Stored κ S} (hcls : object.cls = k) (moves : Bool) (id : ℕ) :
    manage classes k moves none (some object) id = .ok ({ object with id },
      if moves then { object with state := (classes k).movedFrom object.state } else object) :=
  if_pos hcls

variable {result : Except Fault (Functions ι κ P S A R)}

theorem Follows.fill_functor {k : κ} {state : S} (h : Follows kind classes s m)
    (hheld : s.held v = none)
    (hcompiles : compiles kind classes v (.functor k state : Source ι κ P S) = true)
    (hfill : Functions.fill classes s v {} (.functor k state) = some result) :
    ∃ s' m', result = .ok s' ∧ m.fill v (.functor k state) = some m' ∧
      Follows kind classes s' m' := by
  obtain rfl := Option.some.inj hfill
  simp only [compiles, Bool.and_eq_true, Bool.or_eq_true, decide_eq_true_eq,
    Bool.not_eq_true'] at hcompiles
  obtain ⟨⟨hsize, halignment⟩, hcopyable⟩ := hcompiles
  refine ⟨_, _, rfl, rfl, h.emplace hheld ?_ rfl⟩
  refine ⟨rfl, fun _ hk => by cases hk; rfl, nofun, ?_, ?_, ?_⟩
  · rintro _ ⟨⟩
    exact hsize
  · rintro _ ⟨⟩
    exact Nat.dvd_of_mod_eq_zero halignment
  · rintro _ ⟨⟩ htrue
    rcases hcopyable with hfalse | hcopyable
    · rw [htrue] at hfalse
      cases hfalse
    · exact hcopyable

theorem Follows.fill_copy (h : Follows kind classes s m) (hheld : s.held v = none)
    (hcompiles : compiles kind classes v (.copy w : Source ι κ P S) = true)
    (hfill : Functions.fill classes s v {} (.copy w) = some result) :
    ∃ s' m', result = .ok s' ∧ m.fill v (.copy w) = some m' ∧ Follows kind classes s' m' := by
  obtain ⟨⟨entry, manager, data⟩, hother, hresult⟩ := Option.map_eq_some_iff.1 hfill
  have hsound := h.sound w _ hother
  have hvalue : m.fill v (.copy w) =
      some (m.put v (some (InplaceFunction.target ⟨entry, manager, data⟩))) := by
    rw [Values.fill, h.vars, hother]
    rfl
  cases manager with
  | none =>
    subst hresult
    obtain ⟨hentry, htarget⟩ := hsound.entry rfl (kind v)
    refine ⟨_, _, rfl, hvalue, ?_⟩
    rw [← htarget]
    refine h.keep (x := some { invoke := entry }) ?_ hheld.symm
    rintro _ ⟨⟩
    exact hentry
  | some k =>
    obtain ⟨object, rfl, rfl⟩ := hsound.exists_data rfl
    change (manage classes object.cls false none (some object) s.count).map _ = result at hresult
    rw [manage_eq rfl] at hresult
    subst hresult
    obtain ⟨hstored, htarget⟩ :=
      hsound.stored rfl s.count (converts_of_compiles hcompiles (.inl rfl))
    refine ⟨_, _, rfl, hvalue, ?_⟩
    rw [← htarget]
    exact h.emplace hheld hstored rfl

/-- The source keeps its manager, so that it is another variable when it has one. -/
theorem Follows.fill_move (h : Follows kind classes s m) (hv : ∀ f, s.vars v = some f → f = {})
    (hheld : s.held v = none)
    (hcompiles : compiles kind classes v (.move w : Source ι κ P S) = true)
    (hfill : Functions.fill classes s v {} (.move w) = some result) :
    ∃ s' m', result = .ok s' ∧ m.fill v (.move w) = some m' ∧ Follows kind classes s' m' := by
  obtain ⟨⟨entry, manager, data⟩, hother, hresult⟩ := Option.map_eq_some_iff.1 hfill
  have hsound := h.sound w _ hother
  have hvalue : m.fill v (.move w) =
      some ((m.put v (some (InplaceFunction.target ⟨entry, manager, data⟩))).put w
        (some none)) := by
    rw [Values.fill, h.vars, hother]
    rfl
  cases manager with
  | none =>
    subst hresult
    obtain ⟨hentry, htarget⟩ := hsound.entry rfl (kind v)
    obtain rfl := hsound.data_eq_none rfl
    refine ⟨_, _, rfl, hvalue, ?_⟩
    rw [← htarget]
    have hkeep : Follows kind classes (s.put v (some { invoke := entry })) (m.put v _) :=
      h.keep (by rintro _ ⟨⟩; exact hentry) hheld.symm
    refine hkeep.keep (x := some {}) ?_ ?_
    · rintro _ ⟨⟩
      exact .empty
    · rw [held_put, Function.update_apply, held, hother]
      split
      · rfl
      · rfl
  | some k =>
    obtain ⟨object, rfl, rfl⟩ := hsound.exists_data rfl
    change (manage classes object.cls true none (some object) s.count).map _ = result at hresult
    rw [manage_eq rfl] at hresult
    subst hresult
    have hwv : w ≠ v := by
      rintro rfl
      cases hv _ hother
    obtain ⟨hstored, htarget⟩ :=
      hsound.stored rfl s.count (converts_of_compiles hcompiles (.inr rfl))
    refine ⟨_, _, rfl, hvalue, ?_⟩
    rw [← htarget]
    refine (h.emplace hheld hstored rfl).keep (v := w)
      (x := some ⟨.defaultFunction, some object.cls,
      some { object with state := (classes object.cls).movedFrom object.state }⟩) ?_ ?_
    · rintro _ ⟨⟩
      exact hsound.change rfl (.inl rfl) _
    · change _ = (s.put v _).held w
      rw [held_put, Function.update_of_ne hwv, held, hother]
      rfl

/-- A variable that is cleared, or not there, takes the value of a source. -/
theorem Follows.fill (h : Follows kind classes s m) (hv : ∀ f, s.vars v = some f → f = {})
    (hcompiles : compiles kind classes v source = true)
    (hfill : Functions.fill classes s v {} source = some result) :
    ∃ s' m', result = .ok s' ∧ m.fill v source = some m' ∧ Follows kind classes s' m' := by
  have hheld : s.held v = none := by
    rw [held]
    cases hf : s.vars v with
    | none => rfl
    | some f =>
      rw [hv f hf]
      rfl
  cases source with
  | null =>
    obtain rfl := Option.some.inj hfill
    refine ⟨_, _, rfl, rfl, h.keep (x := some {}) ?_ hheld.symm⟩
    rintro _ ⟨⟩
    exact .empty
  | pointer p =>
    obtain rfl := Option.some.inj hfill
    refine ⟨_, _, rfl, rfl, h.keep (x := some { invoke := .pointer p }) ?_ hheld.symm⟩
    rintro _ ⟨⟩
    exact ⟨rfl, nofun, fun _ _ => rfl, nofun, nofun, nofun⟩
  | functor k state => exact h.fill_functor hheld hcompiles hfill
  | copy w => exact h.fill_copy hheld hcompiles hfill
  | move w => exact h.fill_move hv hheld hcompiles hfill

/-! ### The steps -/

omit [DecidableEq ι] [DecidableEq κ] in
theorem Follows.running (h : Follows kind classes s m) : ¬s.fault.isSome = true := by
  rw [h.fault]
  exact Bool.false_ne_true

omit [DecidableEq ι] [DecidableEq κ] in
theorem Follows.see (h : Follows kind classes s m) (seen : Seen ι A R) :
    Follows kind classes { s with log := s.log ++ [seen] } { m with log := m.log ++ [seen] } where
  fault := h.fault
  log := congrArg (· ++ [seen]) h.log
  vars := h.vars
  sound := h.sound
  objects := h.objects

variable {throws : Bool} {argument : A}

theorem Follows.construct (h : Follows kind classes s m)
    (hstep : step kind classes invoke s (.construct v source throws) = some s') :
    ∃ m', m.step classes invoke (.construct v source throws) = some m' ∧
      Follows kind classes s' m' := by
  rw [step, if_neg h.running] at hstep
  cases hv : s.vars v with
  | some f =>
    rw [hv] at hstep
    cases hstep
  | none =>
    rw [hv] at hstep
    obtain ⟨hok, hstep⟩ := Option.ite_none_right_eq_some.1 hstep
    obtain ⟨result, hfill, rfl⟩ := Option.map_eq_some_iff.1 hstep
    obtain ⟨s'', m'', rfl, hvalue, hfollows⟩ :=
      h.fill (fun f hf => by rw [hv] at hf; cases hf) (Bool.and_eq_true_iff.1 hok).1 hfill
    have hnot : (m.vars v).isSome = false := by rw [h.vars, hv]; rfl
    rw [Values.step, hnot, if_neg Bool.false_ne_true]
    cases throws with
    | true => exact ⟨m, rfl, h⟩
    | false => exact ⟨m'', hvalue, hfollows⟩

theorem Follows.assign (h : Follows kind classes s m)
    (hstep : step kind classes invoke s (.assign v source throws) = some s') :
    ∃ m', m.step classes invoke (.assign v source throws) = some m' ∧
      Follows kind classes s' m' := by
  rw [step, if_neg h.running] at hstep
  obtain ⟨f, hf, hstep⟩ := Option.bind_eq_some_iff.1 hstep
  rw [(h.sound v f hf).clear] at hstep
  obtain ⟨hok, hstep⟩ := Option.ite_none_right_eq_some.1 hstep
  obtain ⟨result, hfill, rfl⟩ := Option.map_eq_some_iff.1 hstep
  have hclear := h.clear hf (x := some {}) (by rintro _ ⟨⟩; rfl)
  obtain ⟨s'', m'', rfl, hvalue, hfollows⟩ := hclear.fill (fun f hf => by
    change Function.update s.vars v (some {}) v = some f at hf
    rw [Function.update_self] at hf
    exact (Option.some.inj hf).symm) (Bool.and_eq_true_iff.1 hok).1 hfill
  have hnot : (m.vars v).isNone = false := by rw [h.vars, hf]; rfl
  rw [Values.step, hnot, if_neg Bool.false_ne_true]
  cases throws with
  | true => exact ⟨_, rfl, hclear⟩
  | false => exact ⟨m'', hvalue, hfollows⟩

theorem Follows.destroy (h : Follows kind classes s m)
    (hstep : step kind classes invoke s (.destroy v) = some s') :
    ∃ m', m.step classes invoke (.destroy v) = some m' ∧ Follows kind classes s' m' := by
  rw [step, if_neg h.running] at hstep
  obtain ⟨f, hf, rfl⟩ := Option.map_eq_some_iff.1 hstep
  rw [(h.sound v f hf).clear]
  refine ⟨m.put v none, ?_, h.clear hf (x := none) nofun⟩
  rw [Values.step, h.vars, hf]
  rfl

theorem Follows.test (h : Follows kind classes s m)
    (hstep : step kind classes invoke s (.test v) = some s') :
    ∃ m', m.step classes invoke (.test v) = some m' ∧ Follows kind classes s' m' := by
  rw [step, if_neg h.running] at hstep
  obtain ⟨f, hf, rfl⟩ := Option.map_eq_some_iff.1 hstep
  have hassigned : f.target.isSome = f.assigned := (h.sound v f hf).isSome_target
  refine ⟨_, ?_, h.see (.tested v f.assigned)⟩
  rw [Values.step, h.vars, hf, Option.map_some, Option.map_some, hassigned]

theorem Follows.call (h : Follows kind classes s m)
    (hstep : step kind classes invoke s (.call v argument) = some s') :
    ∃ m', m.step classes invoke (.call v argument) = some m' ∧ Follows kind classes s' m' := by
  rw [step, if_neg h.running] at hstep
  obtain ⟨⟨entry, manager, data⟩, hf, hs'⟩ := Option.map_eq_some_iff.1 hstep
  have hsound := h.sound v _ hf
  cases entry with
  | defaultFunction =>
    subst hs'
    refine ⟨_, ?_, h.see (.called v argument none)⟩
    rw [Values.step, h.vars, hf]
    rfl
  | pointer p =>
    subst hs'
    have hvalue : m.vars v = some (some (.pointer p)) := by
      rw [h.vars, hf]
      rfl
    have hsame : m.put v (some (some (.pointer p))) = m := by
      rw [Values.put, ← hvalue, Function.update_eq_self]
    refine ⟨_, ?_, h.see (.called v argument (some (invoke p argument)))⟩
    rw [Values.step, hvalue, Option.map_some]
    exact congrArg (fun m' : Values ι κ P S A R =>
      some { m' with log := m.log ++ [Seen.called v argument (some (invoke p argument))] }) hsame
  | functor k =>
    obtain ⟨object, rfl, rfl⟩ := hsound.exists_data (hsound.functor k rfl)
    have hkeep := h.keep (v := v) (x := some _)
      (by
        rintro _ ⟨⟩
        exact hsound.change rfl (.inr rfl) ((classes object.cls).call object.state argument).2)
      (by rw [held, hf]; rfl)
    obtain rfl := (if_pos rfl).symm.trans hs'
    refine ⟨_, ?_, hkeep.see (.called v argument
      (some ((classes object.cls).call object.state argument).1))⟩
    rw [Values.step, h.vars, hf]
    rfl

/-- Two functions without a manager are exchanged, and else a functor is moved from where there is
none. -/
theorem swapBuffers_eq {parameters parameters' : Parameters} (hf : f.Sound classes parameters)
    (hother : other.Sound classes parameters') (id : ℕ) :
    swapBuffers classes f other id =
      if f.manager = none ∧ other.manager = none then .ok (none, none, id) else
        .error .notAlive := by
  obtain ⟨entry, manager, data⟩ := f
  obtain ⟨otherEntry, otherManager, otherData⟩ := other
  cases manager with
  | some k => rfl
  | none =>
    obtain rfl := hf.data_eq_none rfl
    cases otherManager with
    | none =>
      obtain rfl := hother.data_eq_none rfl
      rfl
    | some k => rfl

theorem Follows.swap (h : Follows kind classes s m) (hv : s.managed v = false)
    (hw : s.managed w = false) (hstep : step kind classes invoke s (.swap v w) = some s') :
    ∃ m', m.step classes invoke (.swap v w) = some m' ∧ Follows kind classes s' m' := by
  rw [step, if_neg h.running] at hstep
  obtain ⟨⟨entry, manager, data⟩, hf, hstep⟩ := Option.bind_eq_some_iff.1 hstep
  obtain ⟨⟨otherEntry, otherManager, otherData⟩, hother, hstep⟩ := Option.bind_eq_some_iff.1 hstep
  obtain ⟨hkind, hs'⟩ := Option.ite_none_right_eq_some.1 hstep
  have hsoundf := h.sound v _ hf
  have hsoundo := h.sound w _ hother
  rw [managed, hf] at hv
  rw [managed, hother] at hw
  obtain rfl : manager = none := Option.not_isSome_iff_eq_none.1 (Bool.eq_false_iff.1 hv)
  obtain rfl : otherManager = none := Option.not_isSome_iff_eq_none.1 (Bool.eq_false_iff.1 hw)
  obtain rfl := hsoundf.data_eq_none rfl
  obtain rfl := hsoundo.data_eq_none rfl
  obtain rfl := Option.some.inj hs'
  have hfirst := h.keep (v := v) (x := some { invoke := otherEntry })
    (by rintro _ ⟨⟩; exact (hsoundo.entry rfl (kind v)).1) (by rw [held, hf]; rfl)
  have hsecond := hfirst.keep (v := w) (x := some { invoke := entry })
    (by rintro _ ⟨⟩; exact (hsoundf.entry rfl (kind w)).1)
    (by
      rw [held_put, Function.update_apply, held, hother]
      split
      · rfl
      · rfl)
  refine ⟨_, ?_, hsecond⟩
  rw [Values.step, h.vars, h.vars, hf, hother]
  rfl

/-- No functor is exchanged. -/
def harmless (s : Functions ι κ P S A R) : FunctionAction ι κ P S A → Bool
  | .swap v w => !s.managed v && !s.managed w
  | _ => true

theorem Follows.step (h : Follows kind classes s m) (hharmless : s.harmless action = true)
    (hstep : Functions.step kind classes invoke s action = some s') :
    ∃ m', m.step classes invoke action = some m' ∧ Follows kind classes s' m' := by
  cases action with
  | construct v source throws => exact h.construct hstep
  | assign v source throws => exact h.assign hstep
  | destroy v => exact h.destroy hstep
  | call v argument => exact h.call hstep
  | test v => exact h.test hstep
  | swap v w =>
    simp only [harmless, Bool.and_eq_true, Bool.not_eq_true'] at hharmless
    exact h.swap hharmless.1 hharmless.2 hstep

/-- A swap goes wrong when a functor is involved. -/
theorem Follows.swap_fault (h : Follows kind classes s m)
    (hstep : Functions.step kind classes invoke s (.swap v w) = some s') :
    s'.fault.isSome = (s.managed v || s.managed w) := by
  rw [Functions.step, if_neg h.running] at hstep
  obtain ⟨f, hf, hstep⟩ := Option.bind_eq_some_iff.1 hstep
  obtain ⟨other, hother, hstep⟩ := Option.bind_eq_some_iff.1 hstep
  obtain ⟨-, hs'⟩ := Option.ite_none_right_eq_some.1 hstep
  obtain rfl := Option.some.inj hs'
  rw [swapBuffers_eq (h.sound v f hf) (h.sound w other hother), managed, managed, hf, hother]
  obtain ⟨entry, manager, data⟩ := f
  obtain ⟨otherEntry, otherManager, otherData⟩ := other
  cases manager with
  | some k => rfl
  | none =>
    cases otherManager with
    | some k => rfl
    | none => exact congrArg Option.isSome h.fault

end Functions

end Model

end Arcana.Functional
