import CPractice.Conf.Lines

/-!
# Loading one file after another

`parseLine` keeps the current section in a static array, which a load neither sets nor resets.  So a
load begins in the section in which the last one ended.  What a file assigns does not depend on it
if no key stands in front of its first section header.
-/

namespace CPractice.Conf

/-- `first_key` after a sequence of loads. -/
def loadAll : Bytes → List Bytes → Option Bytes
  | firstKey, [] => some firstKey
  | firstKey, content :: contents => do
      let out ← confInit firstKey content
      loadAll out.1 contents

/-- The value and the dictionary of a load that follows a sequence of loads. -/
def loadAfter (history : List Bytes) (content : Bytes) : Option (ℤ × Option Dict) := do
  let firstKey ← loadAll defaultFirstKey history
  let out ← confInit firstKey content
  some out.2

/-- No line in front of the first section header assigns a key. -/
def KeysBehindHeader : List Bytes → Prop
  | [] => True
  | line :: lines =>
      match classify line with
      | .header _ => True
      | .assign _ _ => False
      | .nothing => KeysBehindHeader lines

theorem foldl_parseLine_eq {lines : List Bytes} (h : KeysBehindHeader lines)
    (firstKey firstKey' : Bytes) (dt : Dict) :
    (lines.foldl parseLine (firstKey, dt)).2 = (lines.foldl parseLine (firstKey', dt)).2 := by
  induction lines with
  | nil => rfl
  | cons line lines ih =>
      rw [KeysBehindHeader] at h
      rw [List.foldl_cons, List.foldl_cons, parseLine, parseLine]
      cases hclass : classify line with
      | header s => rfl
      | assign key value =>
          rw [hclass] at h
          exact h.elim
      | nothing =>
          rw [hclass] at h
          exact ih h

/-- `[s]` and `a=1`. -/
def sectionFile : Bytes := [91, 115, 93, 10, 97, 61, 49, 10]

/-- `a=1` without a section. -/
def plainFile : Bytes := [97, 61, 49, 10]

end CPractice.Conf
