/-!
# Error codes and error types

What the other modules share of `std::error_code` and of the error types of tasks.

* `ErrorCode`: a value and a category.
* `ErrorKind`: the error types of tasks, with `error_priority` and `largest_error`.
-/

namespace Arcana

/-- An `std::error_category`, as it is compared: by its address. -/
inductive Category
  | generic
  | iostream
  | future
  | system
  -- `hresult_category`
  | hresult
  | other (n : Nat)
  deriving DecidableEq, Repr

/-- `std::error_code`. The value is an `int`, by its bits. -/
@[ext] structure ErrorCode where
  value : BitVec 32
  category : Category
  deriving DecidableEq, Repr

/-- `std::make_error_code(std::errc::operation_canceled)`, with the value of `ECANCELED` on
Linux. -/
def ErrorCode.operationCanceled : ErrorCode := { value := 125, category := .generic }

/-- The error types of tasks. -/
inductive ErrorKind
  | errorCode
  | exceptionPtr
  deriving DecidableEq, Repr

/-- `error_priority` -/
def ErrorKind.priority : ErrorKind → Nat
  | .errorCode => 0
  | .exceptionPtr => 1

/-- `largest_error` -/
def largestError (left right : ErrorKind) : ErrorKind :=
  if left.priority ≤ right.priority then right else left

end Arcana
