-- Resource counts (`floorplan.rs`): an area is a vector of five counters of 64
-- bits, added and subtracted with a check of every component.
import Tapa.TaskGraph

namespace Tapa.Ir

/-- The resource classes, in the order of the solver. -/
inductive Resource where
  | Ff | Lut | Bram18k | Dsp | Uram
deriving DecidableEq, Ord, Repr

namespace Resource

def ALL : List Resource := [Ff, Lut, Bram18k, Dsp, Uram]

def amount (resource : Resource) (area : Area) : Nat :=
  match resource with
  | Ff => area.ff
  | Lut => area.lut
  | Bram18k => area.bram_18k
  | Dsp => area.dsp
  | Uram => area.uram

def is_logic : Resource → Bool
  | Ff | Lut => true
  | _ => false

def name : Resource → Text.Str
  | Ff => "FF".toList
  | Lut => "LUT".toList
  | Bram18k => "BRAM_18K".toList
  | Dsp => "DSP".toList
  | Uram => "URAM".toList

theorem mem_ALL (resource : Resource) : resource ∈ ALL := by cases resource <;> decide

instance : Std.TransOrd Resource where
  eq_swap {a b} := by cases a <;> cases b <;> decide
  isLE_trans {a b c} := by cases a <;> cases b <;> cases c <;> decide

instance : Std.LawfulEqOrd Resource where
  eq_of_compare {a b} := by cases a <;> cases b <;> decide

end Resource

namespace Area

/-! ## Areas as ordered sums -/

instance : Zero Area := ⟨⟨0, 0, 0, 0, 0⟩⟩

instance : Add Area :=
  ⟨fun a b => ⟨a.lut + b.lut, a.ff + b.ff, a.bram_18k + b.bram_18k, a.dsp + b.dsp, a.uram + b.uram⟩⟩

instance : Sub Area :=
  ⟨fun a b => ⟨a.lut - b.lut, a.ff - b.ff, a.bram_18k - b.bram_18k, a.dsp - b.dsp, a.uram - b.uram⟩⟩

instance : LE Area :=
  ⟨fun a b => a.lut ≤ b.lut ∧ a.ff ≤ b.ff ∧ a.bram_18k ≤ b.bram_18k ∧ a.dsp ≤ b.dsp ∧
    a.uram ≤ b.uram⟩

theorem le_def {a b : Area} : a ≤ b ↔ a.lut ≤ b.lut ∧ a.ff ≤ b.ff ∧ a.bram_18k ≤ b.bram_18k ∧
    a.dsp ≤ b.dsp ∧ a.uram ≤ b.uram := Iff.rfl

theorem zero_def : (0 : Area) = ⟨0, 0, 0, 0, 0⟩ := rfl

theorem add_def (a b : Area) : a + b =
    ⟨a.lut + b.lut, a.ff + b.ff, a.bram_18k + b.bram_18k, a.dsp + b.dsp, a.uram + b.uram⟩ := rfl

theorem sub_def (a b : Area) : a - b =
    ⟨a.lut - b.lut, a.ff - b.ff, a.bram_18k - b.bram_18k, a.dsp - b.dsp, a.uram - b.uram⟩ := rfl

instance : DecidableLE Area := fun a b => decidable_of_iff' _ (le_def (a := a) (b := b))

instance : AddCommMonoid Area where
  add_assoc a b c := by simp [add_def, Nat.add_assoc]
  zero_add a := by simp [add_def, zero_def]
  add_zero a := by simp [add_def, zero_def]
  add_comm a b := by simp [add_def, Nat.add_comm]
  nsmul := nsmulRec

instance : PartialOrder Area where
  le_refl a := by simp [le_def]
  le_trans a b c hab hbc := by
    rw [le_def] at *
    omega
  le_antisymm a b hab hba := by
    rw [le_def] at *
    ext <;> omega

instance : IsOrderedCancelAddMonoid Area where
  add_le_add_left a b hab c := by
    simp only [le_def, add_def] at *
    omega
  le_of_add_le_add_left a b c h := by
    simp only [le_def, add_def] at *
    omega

instance : CanonicallyOrderedAdd Area where
  exists_add_of_le {a b} hab := by
    refine ⟨b - a, ?_⟩
    simp only [le_def, add_def, sub_def] at *
    ext <;> simp only <;> omega
  le_add_self a b := by
    simp only [le_def, add_def]
    omega
  le_self_add a b := by
    simp only [le_def, add_def]
    omega

instance : OrderedSub Area where
  tsub_le_iff_right a b c := by
    simp only [le_def, add_def, sub_def]
    omega

/-! ## Counters of 64 bits -/

/-- No counter is past its width. -/
def fits (a : Area) : Bool :=
  decide (a.lut < 2 ^ 64 ∧ a.ff < 2 ^ 64 ∧ a.bram_18k < 2 ^ 64 ∧ a.dsp < 2 ^ 64 ∧ a.uram < 2 ^ 64)

def checked_add (a b : Area) : Option Area := if (a + b).fits then some (a + b) else none

def checked_sub (a b : Area) : Option Area := if b ≤ a then some (a - b) else none

theorem fits_iff {a : Area} :
    a.fits = true ↔ ∀ resource : Resource, resource.amount a < 2 ^ 64 := by
  simp only [fits, decide_eq_true_eq]
  constructor
  · rintro ⟨hlut, hff, hbram, hdsp, huram⟩ resource
    cases resource <;> assumption
  · intro h
    exact ⟨h .Lut, h .Ff, h .Bram18k, h .Dsp, h .Uram⟩

theorem fits_of_le (a b : Area) (h : a ≤ b) (hb : b.fits = true) : a.fits = true := by
  simp only [fits, le_def, decide_eq_true_eq] at *
  omega

end Area

end Tapa.Ir
