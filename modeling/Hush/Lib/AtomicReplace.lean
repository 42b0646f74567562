import Mathlib.Logic.Function.Basic
import Mathlib.Tactic.Common

/-! Replacing a file by a rename: the temporary is created exclusively, filled, and then
takes the file's place. A reader of the file sees the old contents or the new ones. -/
namespace Hush.Lib

variable {β : Type*}

/-- One file and the temporaries beside it, indexed by the nonce in their name. -/
structure Dir (β : Type*) where
  file : Option β
  tmp : String → Option β

namespace Dir

def setTmp (d : Dir β) (nonce : String) (b : Option β) : Dir β :=
  { d with tmp := Function.update d.tmp nonce b }

@[simp] theorem setTmp_file (d : Dir β) (nonce : String) (b : Option β) :
    (d.setTmp nonce b).file = d.file := rfl

@[simp] theorem setTmp_tmp_self (d : Dir β) (nonce : String) (b : Option β) :
    (d.setTmp nonce b).tmp nonce = b := by simp [setTmp]

/-- `rename` moves the temporary over the file. -/
def rename (d : Dir β) (nonce : String) : Dir β :=
  { file := d.tmp nonce, tmp := Function.update d.tmp nonce none }

@[simp] theorem rename_file (d : Dir β) (nonce : String) :
    (d.rename nonce).file = d.tmp nonce := rfl

end Dir

/-- Where a replacement stands. The names left to try are counted down. -/
inductive Replace
  | creating (tries : Nat)
  | writing (nonce : String)
  | synced (nonce : String)
  | installed
  deriving DecidableEq, Repr

/-- The temporary that a failed replacement removes, if the removal works. -/
def Dir.discard (d : Dir β) : Replace → Dir β
  | .writing nonce | .synced nonce => d.setTmp nonce none
  | .creating _ | .installed => d

@[simp] theorem Dir.discard_file (d : Dir β) (r : Replace) : (d.discard r).file = d.file := by
  cases r <;> rfl

/-- The successful system calls of a replacement by `data`, one step each. -/
inductive ReplaceStep (data : β) : Replace → Dir β → Replace → Dir β → Prop
  /-- The exclusive open fails on a name that exists; the next one is tried. -/
  | collide {n : Nat} {d : Dir β} (nonce : String) (h : d.tmp nonce ≠ none) :
      ReplaceStep data (.creating (n + 1)) d (.creating n) d
  | create {n : Nat} {d : Dir β} (nonce : String) (b : β) (h : d.tmp nonce = none) :
      ReplaceStep data (.creating (n + 1)) d (.writing nonce) (d.setTmp nonce (some b))
  /-- A partial write: nothing is assumed about what has reached the temporary so far. -/
  | write {d : Dir β} {nonce : String} (b : β) :
      ReplaceStep data (.writing nonce) d (.writing nonce) (d.setTmp nonce (some b))
  | sync {d : Dir β} {nonce : String} :
      ReplaceStep data (.writing nonce) d (.synced nonce) (d.setTmp nonce (some data))
  | rename {d : Dir β} {nonce : String} :
      ReplaceStep data (.synced nonce) d .installed (d.rename nonce)

namespace Replace

/-- A temporary that is about to be renamed holds all the data. -/
def Filled (data : β) (d : Dir β) : Replace → Prop
  | .synced nonce => d.tmp nonce = some data
  | .creating _ | .writing _ | .installed => True

variable {data : β} {r r' : Replace} {d d' : Dir β}

theorem filled_step (h : ReplaceStep data r d r' d') : r'.Filled data d' := by
  cases h <;> simp [Filled]

/-- Only the rename touches the file, and it installs exactly the data. -/
theorem file_step (h : ReplaceStep data r d r' d') (hf : r.Filled data d) :
    (r' ≠ .installed ∧ d'.file = d.file) ∨ (r' = .installed ∧ d'.file = some data) := by
  cases h with
  | collide | create | write | sync => exact Or.inl ⟨by simp, by simp⟩
  | rename => exact Or.inr ⟨rfl, hf⟩

end Replace

end Hush.Lib
