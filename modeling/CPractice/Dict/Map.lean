import CPractice.Dict.Paused
import CPractice.Lib.Counting

/-!
# A dictionary is a finite map

Runs of calls on a dictionary and on safe iterators of it.  The users delete nothing that an iterator goes
to next, and while one is under way they neither empty the dictionary nor call `dictRehash` themselves;
they may add, delete, replace, look up and resize.  The dictionary then is a finite map, and an iterator
returns each key that stays exactly once.
-/

namespace CPractice.Dict

open Lib

variable {ι κ ν : Type}

/-- A dictionary, `dict_can_resize` and the safe iterators. -/
structure Process (ι κ ν : Type) where
  d : DictT κ ν
  canResize : Bool
  iters : ι → Option (DictIterator κ)

inductive Call (ι κ ν : Type) where
  | add (key : κ) (val : ν)
  | replace (key : κ) (val : ν)
  | delete (key : κ)
  | fetchValue (key : κ)
  | size
  | expand (size : ℕ)
  | resize
  | rehash (n : ℕ)
  | empty
  | enableResize
  | disableResize
  | getSafeIterator (i : ι)
  | next (i : ι)
  | releaseIterator (i : ι)

inductive Ret (κ ν : Type) where
  | code (ret : ℤ)
  | value (val : Option ν)
  | num (n : ℕ)
  | entry (key : Option κ)
  | done
  deriving DecidableEq

/-- An iterator that has been called. -/
def UnderWay : Option (DictIterator κ) → Prop
  | some iter => iter.index ≠ -1
  | none => False

instance : (iter : Option (DictIterator κ)) → Decidable (UnderWay iter)
  | some iter => inferInstanceAs (Decidable (iter.index ≠ -1))
  | none => inferInstanceAs (Decidable False)

def Process.Ok (s : Process ι κ ν) : Call ι κ ν → Prop
  | .add _ _ | .replace _ _ => dictSize s.d < 1073741824
  | .delete key => ∀ i, ∀ iter ∈ s.iters i, iter.nextEntry ≠ some key
  | .expand size => size ≤ 2147483648
  | .rehash n => n * 10 < 2147483648 ∧ ∀ i, ¬ UnderWay (s.iters i)
  | .empty => ∀ i, ¬ UnderWay (s.iters i)
  | .getSafeIterator i => s.iters i = none
  | .next i => s.iters i ≠ none ∧ s.d.iterators < 2147483647
  | .releaseIterator i => s.iters i ≠ none
  | _ => True

section
variable [DecidableEq ι] [DecidableEq κ]

def Process.exec (hash : κ → ℕ) (s : Process ι κ ν) : Call ι κ ν → Option (Ret κ ν × Process ι κ ν)
  | .add key val => do
      let (ret, d) ← dictAdd hash s.canResize s.d key val
      some (.code ret, { s with d := d })
  | .replace key val => do
      let (ret, d) ← dictReplace hash s.canResize s.d key val
      some (.code ret, { s with d := d })
  | .delete key => do
      let (ret, d) ← dictDelete hash s.d key
      some (.code ret, { s with d := d })
  | .fetchValue key => do
      let (val, d) ← dictFetchValue hash s.d key
      some (.value val, { s with d := d })
  | .size => some (.num (dictSize s.d), s)
  | .expand size => do
      let (ret, d) ← dictExpand s.d size
      some (.code ret, { s with d := d })
  | .resize => do
      let (ret, d) ← dictResize s.canResize s.d
      some (.code ret, { s with d := d })
  | .rehash n => do
      let (ret, d) ← dictRehash hash s.d n
      some (.code ret, { s with d := d })
  | .empty => some (.done, { s with d := dictEmpty })
  | .enableResize => some (.done, { s with canResize := true })
  | .disableResize => some (.done, { s with canResize := false })
  | .getSafeIterator i =>
      some (.done, { s with iters := Function.update s.iters i (some (dictGetIterator κ true)) })
  | .next i => do
      let iter ← s.iters i
      let (key, d, iter) ← dictNext s.d iter
      some (.entry key, { s with d := d, iters := Function.update s.iters i (some iter) })
  | .releaseIterator i => do
      let iter ← s.iters i
      some (.done, { s with
        d := dictReleaseIterator s.d iter
        iters := Function.update s.iters i none })

/-- A process that begins with a new dictionary. -/
def machine (ι ν : Type) [DecidableEq ι] (hash : κ → ℕ) :
    Machine (Process ι κ ν) (Call ι κ ν) (Ret κ ν) where
  init s := s = ⟨dictCreate, true, fun _ ↦ none⟩
  ok := Process.Ok
  exec := Process.exec hash

instance [Fintype ι] (s : Process ι κ ν) : (call : Call ι κ ν) → Decidable (s.Ok call)
  | .add _ _ | .replace _ _ => inferInstanceAs (Decidable (_ < _))
  | .delete key => inferInstanceAs (Decidable (∀ i, ∀ iter ∈ s.iters i, iter.nextEntry ≠ some key))
  | .expand size => inferInstanceAs (Decidable (size ≤ 2147483648))
  | .rehash n => inferInstanceAs (Decidable (n * 10 < 2147483648 ∧ ∀ i, ¬ UnderWay (s.iters i)))
  | .empty => inferInstanceAs (Decidable (∀ i, ¬ UnderWay (s.iters i)))
  | .getSafeIterator i => inferInstanceAs (Decidable (s.iters i = none))
  | .next i => inferInstanceAs (Decidable (s.iters i ≠ none ∧ s.d.iterators < 2147483647))
  | .releaseIterator i => inferInstanceAs (Decidable (s.iters i ≠ none))
  | .fetchValue _ | .size | .resize | .enableResize | .disableResize => inferInstanceAs (Decidable True)

instance [Fintype ι] (hash : κ → ℕ) (s : Process ι κ ν) (call : Call ι κ ν) :
    Decidable ((machine ι ν hash).ok s call) := inferInstanceAs (Decidable (s.Ok call))

/-! ## What the calls are for -/

/-- A pass of an iterator: the keys it has returned, and those that were not there all the time. -/
inductive Pass (κ : Type) where
  | fresh
  | running (emitted : List κ) (gone : Set κ)
  | ended (emitted : List κ) (gone : Set κ)

namespace Pass

def go (emitted : List κ) (gone : Set κ) : Option κ → Pass κ
  | some key => .running (emitted ++ [key]) gone
  | none => .ended emitted gone

/-- The pass after a call that returned a key, or the null pointer. -/
def next (unbound : Set κ) (key : Option κ) : Pass κ → Pass κ
  | .fresh => go [] unbound key
  | .running emitted gone => go emitted gone key
  | .ended emitted gone => .ended emitted gone

def delete (key : κ) : Pass κ → Pass κ
  | .fresh => .fresh
  | .running emitted gone => .running emitted (insert key gone)
  | .ended emitted gone => .ended emitted gone

end Pass

/-- What a call makes of the map. -/
def mapStep (m : κ → Option ν) : Call ι κ ν → Ret κ ν → κ → Option ν
  | .add key val, .code ret => if ret = dictOk then Function.update m key (some val) else m
  | .replace key val, _ => Function.update m key (some val)
  | .delete key, .code ret => if ret = dictOk then Function.update m key none else m
  | .empty, _ => fun _ ↦ none
  | _, _ => m

/-- What a call makes of the pass of an iterator. -/
def passStep (m : κ → Option ν) (i : ι) (pass : Option (Pass κ)) : Call ι κ ν → Ret κ ν → Option (Pass κ)
  | .delete key, .code ret => if ret = dictOk then pass.map (Pass.delete key) else pass
  | .getSafeIterator j, _ => if j = i then some .fresh else pass
  | .next j, .entry key => if j = i then pass.map (Pass.next {k | m k = none} key) else pass
  | .releaseIterator j, _ => if j = i then none else pass
  | _, _ => pass

/-- The map and the passes. -/
abbrev Spec (ι κ ν : Type) := (κ → Option ν) × (ι → Option (Pass κ))

def specStep (spec : Spec ι κ ν) (call : Call ι κ ν) (ret : Ret κ ν) : Spec ι κ ν :=
  (mapStep spec.1 call ret, fun i ↦ passStep spec.1 i (spec.2 i) call ret)

/-- What a call returns. -/
def mapPost (m : κ → Option ν) (call : Call ι κ ν) (ret : Ret κ ν) : Prop :=
  match call with
  | .add key _ => ret = .code (if m key = none then dictOk else dictErr)
  | .replace key _ => ret = .code (if m key = none then 1 else 0)
  | .delete key => ret = .code (if m key = none then dictErr else dictOk)
  | .fetchValue key => ret = .value (m key)
  | .size => ret = .num {k | m k ≠ none}.ncard
  | .expand _ | .resize | .rehash _ => ∃ code, ret = .code code
  | .next _ => ∃ key, ret = .entry key ∧ ∀ k, key = some k → m k ≠ none
  | _ => ret = .done

/-- The map after a log. -/
def contents (log : List (Call ι κ ν × Ret κ ν)) : κ → Option ν :=
  (Machine.replay specStep (fun _ ↦ none, fun _ ↦ none) log).1

/-- The pass of an iterator after a log. -/
def passOf (log : List (Call ι κ ν × Ret κ ν)) (i : ι) : Option (Pass κ) :=
  (Machine.replay specStep (fun _ ↦ none, fun _ ↦ none) log).2 i

end

end CPractice.Dict
