import LogProbe.Failure

/-! Edits of a text and their application as one batch. All offsets of a batch refer to the text
as it is before the batch. -/
namespace LogProbe

/-- The replacement of the bytes from `start` to `stop` by `text`. -/
structure Edit where
  start : Nat
  stop : Nat
  text : Text
  deriving DecidableEq, Repr

namespace Edit

def insertion (offset : Nat) (text : Text) : Edit := ⟨offset, offset, text⟩

def isInsertion (e : Edit) : Bool := e.start == e.stop

/-- Two edits conflict when their spans overlap, or when one is an insertion strictly inside the
span of the other. Two insertions never conflict. -/
def conflictsWith (a b : Edit) : Bool :=
  if a.isInsertion && b.isInsertion then false
  else if a.isInsertion then b.start < a.start && a.start < b.stop
  else if b.isInsertion then a.start < b.start && b.start < a.stop
  else a.start < b.stop && b.start < a.stop

theorem conflictsWith_comm (a b : Edit) : a.conflictsWith b = b.conflictsWith a := by
  unfold conflictsWith
  cases a.isInsertion <;> cases b.isInsertion <;> simp [Bool.and_comm]

/-- Whether `a` is applied no later than `b`: later starts first, and of two edits with one start
the longer first, so that it does not swallow an insertion at its start. -/
def appliesBefore (a b : Edit) : Bool :=
  b.start < a.start || (b.start == a.start && b.stop ≤ a.stop)

/-- What is wrong with an edit of `source` taken alone. -/
def defect? (source : Text) (e : Edit) : Option Failure :=
  if e.stop < e.start ∨ source.size < e.stop then some (.outOfBounds e.stop source.size)
  else if source.isBoundary e.start && source.isBoundary e.stop then none
  else some (.outOfBounds e.start source.size)

/-- Applies edits from the bottom up: `upper` is the part of `source` above the last edit applied,
`done` the finished text below it. -/
def applyUpward (source : Text) : Text → Text → List Edit → Except Failure Text
  | upper, done, [] => .ok (upper ++ done)
  | upper, done, e :: rest =>
    match e.defect? source with
    | some failure => .error failure
    | none =>
      match upper.cut? e.stop with
      | none => .error (.overlap e.start)
      | some (kept, between) =>
        applyUpward source (kept.upTo e.start) (e.text ++ between ++ done) rest

/-- Applies a batch. -/
def applyAll (source : Text) (batch : List Edit) : Except Failure Text :=
  applyUpward source source [] (batch.mergeSort appliesBefore)

@[simp] theorem applyAll_nil (source : Text) : applyAll source [] = .ok source := by
  simp [applyAll, applyUpward]

end Edit
end LogProbe
