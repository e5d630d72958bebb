/-
# NinjaVision.Table.NetworkTable — the table the robot reads.

NetworkTables is not part of this repository; its headers are. An entry has a value of one of the
types of `NT_Type`, and a Put on an existing entry of another type returns false and does not update
it. That is `Lib.Table` with the type of a value as its tag. A Put of `main` is a key with a value
(`Put`), made by `putNumber` or `putNumberArray`; `getNumberArray` is what another client reads the
arrays with.

`NT_UNASSIGNED` is the absence of an entry. The flags, persistence and listeners of a table are used
by nothing here and left out.
-/
import NinjaVision.Lib.ExactDouble
import NinjaVision.Lib.TypedTable

namespace NinjaVision

open Lib (ExactDouble)

variable {K : Type*}

/-- `NT_Type`, without `NT_UNASSIGNED`. -/
inductive ValueType where
  | boolean
  | double
  | string
  | raw
  | booleanArray
  | doubleArray
  | stringArray
  | rpc
  deriving DecidableEq, Repr

/-- `nt::Value`; a boolean array is an array of `int`, as in the header. -/
inductive Value (K : Type*) where
  | boolean (b : Bool)
  | double (v : ExactDouble K)
  | string (s : String)
  | raw (bytes : List UInt8)
  | booleanArray (a : List ℤ)
  | doubleArray (a : List (ExactDouble K))
  | stringArray (a : List String)
  | rpc (bytes : List UInt8)
  deriving DecidableEq, Repr

/-- `Value::type()`. -/
def Value.type : Value K → ValueType
  | .boolean _ => .boolean
  | .double _ => .double
  | .string _ => .string
  | .raw _ => .raw
  | .booleanArray _ => .booleanArray
  | .doubleArray _ => .doubleArray
  | .stringArray _ => .stringArray
  | .rpc _ => .rpc

/-- The key of an entry. -/
abbrev Key := String

/-- The entries of one table. -/
abbrev NetworkTable (K : Type*) := Lib.Table Key (Value K)

/-- The arguments of a Put. -/
abbrev Put (K : Type*) := Key × Value K

def putNumber (key : Key) (value : ExactDouble K) : Put K := (key, .double value)

def putNumberArray (key : Key) (value : List (ExactDouble K)) : Put K := (key, .doubleArray value)

/-- `GetNumberArray(key, defaultValue)`. -/
def getNumberArray (t : NetworkTable K) (key : Key) (defaultValue : List (ExactDouble K)) :
    List (ExactDouble K) :=
  match t key with
  | some (.doubleArray a) => a
  | _ => defaultValue

theorem getNumberArray_of_entry {t : NetworkTable K} {key : Key} {a : List (ExactDouble K)}
    (h : t key = some (.doubleArray a)) (defaultValue : List (ExactDouble K)) :
    getNumberArray t key defaultValue = a := by
  rw [getNumberArray, h]

/-- An entry of another type is read as the default. -/
theorem getNumberArray_of_not_fits {t : NetworkTable K} {key : Key}
    (h : ¬ t.Fits Value.type key .doubleArray) (defaultValue : List (ExactDouble K)) :
    getNumberArray t key defaultValue = defaultValue := by
  unfold getNumberArray
  split
  · next a hentry =>
      refine absurd (fun old hold => ?_) h
      rw [hentry, Option.some.injEq] at hold
      rw [← hold]
      rfl
  · rfl

end NinjaVision
