import Mathlib.Data.Int.SuccPred
import Parlance.Check.Numbers
import Parlance.Lowering
import Parlance.Proofs.MachineSteps
import Parlance.Proofs.WireRoundTrip
/-!
The range of an integer class is written down four times, each time as a sign and a number of bits give it.
-/
namespace Parlance

def InRange (isSigned : Bool) : Option Nat → Int → Prop
  | none, v => isSigned ∨ 0 ≤ v
  | some b, v => if isSigned then -2 ^ (b - 1) ≤ v ∧ v < 2 ^ (b - 1) else 0 ≤ v ∧ v < 2 ^ b

instance (isSigned : Bool) (bits : Option Nat) (v : Int) : Decidable (InRange isSigned bits v) := by
  cases bits <;> unfold InRange <;> infer_instance

theorem NumberClass.fits_iff {c : NumberClass} (hf : c.isFloat = false) (v : Int) :
    c.fits v ↔ InRange c.isSigned c.bits v := by
  unfold fits least? greatest?
  rw [hf]
  cases c.isSigned <;> cases c.bits <;> simp [InRange]

theorem IntWidth.fits_iff (w : IntWidth) (v : Int) : w.fits v ↔ InRange w.isSigned w.bits? v := by
  unfold fits
  cases w.isSigned <;> cases w.bits? <;> simp [InRange]

/-- A literal is refused at the first limit that it passes. -/
theorem Check.excess?_eq_none (c : NumberClass) (v : Int) : excess? c v = none ↔ c.fits v := by
  unfold excess? NumberClass.fits
  cases c.least? <;> cases c.greatest? <;> grind

theorem Check.boundsProblem?_integer {l : Literal} {c : NumberClass} {v : Int} (hl : l.numeric = some c)
    (hf : c.isFloat = false) (hint : l.isFloat = false) (hv : l.value = v) :
    boundsProblem? l = (excess? c v).map (.outOfBounds l.type.render) := by
  simp [boundsProblem?, hl, hint, hv, hf, Option.filter]

namespace Wire

theorem exists_writeFixed {w : IntWidth} {n : Nat} (hn : w.bytes? = some n) (v : Int) :
    (∃ bs, writeFixed n w.isSigned v = .ok bs) ↔ InRange w.isSigned w.bits? v := by
  rw [IntWidth.bits?, hn]
  simp only [writeFixed_eq_ok, limits]
  cases w.isSigned <;> simp [InRange]

theorem exists_writeInteger {v : Int} (hv : byteLength v.natAbs ≤ 65535) (w : IntWidth) :
    (∃ bs, writeInteger w v = .ok bs) ↔ InRange w.isSigned w.bits? v := by
  cases hn : w.bytes? with
  | some n =>
    rw [(integer_of_bytes? hn).1]
    exact exists_writeFixed hn v
  | none =>
    have hmagnitude : writeMagnitude v.natAbs = .ok _ := if_pos (by rw [length_bigEndian]; omega)
    cases w with
    | uBig =>
      simp only [writeInteger, IntWidth.bytes?, hmagnitude]
      show _ ↔ false ∨ 0 ≤ v
      grind
    | iBig =>
      simp only [writeInteger, IntWidth.bytes?, hmagnitude]
      exact iff_of_true ⟨_, rfl⟩ (.inl rfl)
    | _ => cases hn

end Wire

theorem Machine.perform_constInt {s : State} {w : IntWidth} {cls : ClassRef}
    (h : s.marks.lookup (.int w) = some cls) (calls : Calls) (v : Int) : perform calls (.constInt w v) s = .ok ()
      { s with made := s.made + 1, stack := .mk s.made (some cls) (.int w v) [] :: s.stack } := by
  have hbox : boxed (.int w v) s = _ := box_marked h _
  rw [perform, bind_of_ok hbox]
  rfl

namespace NumberClass

open Lowering (intWidth)

theorem intWidth_range : ∀ c ∈ all, c.isFloat = false → c.isAbstract = false →
    (intWidth c).isSigned = c.isSigned ∧ (intWidth c).bits? = c.bits := by
  decide

/-- The classes with a sign or without that a literal gets when nothing asks for another. -/
def ladder (isSigned : Bool) : List NumberClass :=
  [some 32, some 64, some 128, none].filterMap fun bits =>
    all.find? fun c => !c.isFloat && !c.isAbstract && c.isSigned == isSigned && c.bits == bits

theorem find?_ladder {v : Int} {isSigned : Bool} (h : isSigned ∨ 0 ≤ v) :
    (ladder isSigned).find? (·.fits v) = some (narrowestInteger v isSigned) := by
  have hlast (cs : List NumberClass) {c : NumberClass} (hc : c.fits v) :
      (cs ++ [c]).find? (·.fits v) = some ((cs.find? (·.fits v)).getD c) := by
    rw [List.find?_append]
    cases cs.find? (·.fits v) <;> simp [hc]
  cases isSigned with
  | true => exact hlast [int32, int64, int128] (c := bigInteger) rfl
  | false => exact hlast [uint32, uint64, uint128] ((fits_iff (c := bigNatural) rfl v).mpr h)

theorem ranges_agree {c : NumberClass} (hc : c ∈ all) (hf : c.isFloat = false) (ha : c.isAbstract = false)
    {v : Int} (hv : Wire.byteLength v.natAbs ≤ 65535) : (c.fits v = true ↔ InRange c.isSigned c.bits v) ∧
    ((∃ bs, Wire.write (.constInt (intWidth c) v) = .ok bs) ↔ InRange c.isSigned c.bits v) ∧
    (∃ k : IntWidth, (k.fits v = true ↔ InRange c.isSigned c.bits v) ∧
      ∀ (calls : Machine.Calls) (s : Machine.State), ∀ cls ∈ s.marks.lookup (.int (intWidth c)),
        Machine.perform calls (.constInt (intWidth c) v) s = .ok ()
          { s with made := s.made + 1, stack := .mk s.made (some cls) (.int k v) [] :: s.stack }) ∧
    (∀ l : Check.Literal, l.numeric = some c → l.isFloat = false → l.value = v →
      ((∃ reason, Check.boundsProblem? l = some (.outOfBounds l.type.render reason)) ↔
        ¬ InRange c.isSigned c.bits v)) ∧
    ∀ isSigned : Bool, isSigned = true ∨ 0 ≤ v → ∃ narrower wider,
      ladder isSigned = narrower ++ narrowestInteger v isSigned :: wider ∧
      (narrowestInteger v isSigned).fits v = true ∧ ∀ d ∈ narrower, d.fits v = false := by
  obtain ⟨hsign, hbits⟩ := intWidth_range c hc hf ha
  refine ⟨fits_iff hf v, ?_, ⟨intWidth c, ?_, fun calls s cls h => Machine.perform_constInt h calls v⟩,
    fun l hl hint hval => ?_, fun isSigned h => ?_⟩
  · rw [← hsign, ← hbits, ← Wire.exists_writeInteger hv]
    rw [Wire.write]
    cases Wire.writeInteger (intWidth c) v with
    | error u => constructor <;> rintro ⟨_, ⟨⟩⟩
    | ok bs => exact iff_of_true ⟨_, rfl⟩ ⟨_, rfl⟩
  · rw [IntWidth.fits_iff, hsign, hbits]
  · rw [← fits_iff hf, ← Check.excess?_eq_none, Check.boundsProblem?_integer hl hf hint hval]
    cases Check.excess? c v <;> simp
  · obtain ⟨hfits, narrower, wider, heq, hnot⟩ := List.find?_eq_some_iff_append.mp (find?_ladder h)
    exact ⟨narrower, wider, heq, hfits, by simpa using hnot⟩

theorem ranges_agree_edge : (∃ bs, Wire.write (.constInt .i32 2147483647) = .ok bs) ∧
    ¬ ∃ bs, Wire.write (.constInt .i32 2147483648) = .ok bs := by
  refine ⟨(ranges_agree (c := int32) (by decide) rfl rfl (by decide +kernel)).2.1.mpr ?_, fun h => ?_⟩
  · decide +kernel
  · have hv := (ranges_agree (c := int32) (by decide) rfl rfl (by decide +kernel)).2.1.mp h
    revert hv
    decide +kernel

end NumberClass

end Parlance
