import Morphology.Grid.Basic
import Morphology.Pixel.Float

/-!
A log of numbered checks that keeps the failed ones in order.
-/

namespace Morphology

inductive CheckMode where
  | compare
  | display
deriving DecidableEq

/-- Only the word "display", in letters of either case, selects the display mode. -/
def CheckMode.ofSetting (setting : Option String) : CheckMode :=
  if (setting.getD "").toLower = "display" then .display else .compare

inductive CheckError where
  | valueMismatch (index : Nat) (expected actual delta : Binary .double)
  | dimensionMismatch (index : Nat) (expected actual : List Nat)
  | gridMismatch (index : Nat) (coords : List Nat) (expected actual : String)
  | checkFailed (index : Nat) (what : String)
  | failed (name : String) (count : Nat)
deriving DecidableEq

def CheckError.message : CheckError → String
  | valueMismatch index expected actual delta =>
      "value comparison failed at index " ++ index.repr
        ++ ": expected " ++ Binary.Layout.plain.text expected
        ++ ", got " ++ Binary.Layout.plain.text actual
        ++ ", delta " ++ Binary.Layout.plain.text delta
  | dimensionMismatch index expected actual =>
      "grid comparison failed at index " ++ index.repr
        ++ ": dims " ++ bracketed expected ++ " vs " ++ bracketed actual
  | gridMismatch index coords expected actual =>
      "grid comparison failed at index " ++ index.repr
        ++ ": " ++ expected ++ " vs " ++ actual ++ " at " ++ bracketed coords
  | checkFailed index what => "check failed at index " ++ index.repr ++ ": " ++ what
  | failed name count => name ++ "_reg: " ++ count.repr ++ " failure(s)"

structure CheckLog where
  name : String
  mode : CheckMode
  /-- The number of checks made. -/
  index : Nat
  failures : List CheckError
deriving DecidableEq

namespace CheckLog

def new (name : String) (mode : CheckMode) : CheckLog := ⟨name, mode, 0, []⟩

def display (log : CheckLog) : Bool := log.mode = .display

def isSuccess (log : CheckLog) : Bool := log.failures.isEmpty

/-- Counts one check, and keeps its failure if there is one. -/
def record (log : CheckLog) (failure? : Option (Nat → CheckError)) : Bool × CheckLog :=
  let index := log.index + 1
  match failure? with
  | none => (true, { log with index })
  | some failure => (false, { log with index, failures := log.failures ++ [failure index] })

/-- Fails if the values lie further apart than `delta`. A distance that is no number does not. -/
def compareValues (log : CheckLog) (expected actual delta : Binary .double) : Bool × CheckLog :=
  let distance := (Binary.sub expected actual).abs
  log.record
    (if Pixel.lt delta distance then some (.valueMismatch · expected actual delta) else none)

/-- The first element, in row-major order, that differs. -/
def firstDifference? {α : Type} [Pixel α] (expected actual : Grid α) : Option Nat :=
  (expected.data.toList.zip actual.data.toList).findIdx? fun (a, b) => !Pixel.eq a b

def compareGrids {α : Type} [Pixel α] (log : CheckLog) (expected actual : Grid α) :
    Bool × CheckLog :=
  let text (g : Grid α) (index : Nat) : String := ((g.getLinear? index).map Pixel.text).getD ""
  log.record
    (if !expected.sameShape actual then
      some (.dimensionMismatch · expected.dims actual.dims)
    else
      (firstDifference? expected actual).map fun position index =>
        .gridMismatch index (expected.shape.coordsOf position)
          (text expected position) (text actual position))

def check (log : CheckLog) (ok : Bool) (what : String) : Bool × CheckLog :=
  log.record (if ok then none else some (.checkFailed · what))

def cleanup (log : CheckLog) : Bool := log.isSuccess

def result (log : CheckLog) : Except CheckError Unit :=
  if log.cleanup then .ok () else .error (.failed log.name log.failures.length)

end CheckLog

end Morphology
