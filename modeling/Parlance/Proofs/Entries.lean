import Parlance.Proofs.Spelling
import Parlance.Proofs.WireRoundTrip
import Parlance.Store
import Std.Data.String.ToInt
/-!
Entries hold what was put into them: the program under its own key, and nothing under any other.
-/
namespace Parlance

/-- What is found for a key is what was written for it. -/
def Format.Lawful (f : Format) : Prop :=
  ∀ {key own : Digest} {b found : Built} {content : Bytes}, Instruction.areProper b.code →
    f.write own b = .ok content → f.find? key content = some (some found) → own = key ∧ found = b

namespace Entry

/-! ### Parts -/

open List

theorem read_part (before : List Bytes) (own s rest : Bytes) :
    read before own (part s ++ rest) = read ((own.reverse ++ s) :: before) [] rest := by
  induction s generalizing own with
  | nil => rw [append_nil]; rfl
  | cons b s ih =>
    have hstep : read before own (part (b :: s) ++ rest) = read before (b :: own) (part s ++ rest) := rfl
    rw [hstep, ih, reverse_cons, append_assoc, singleton_append]

theorem read_parts (before ss : List Bytes) : read before [] (parts ss) = some (before.reverse ++ ss) := by
  induction ss generalizing before with
  | nil => rw [append_nil]; rfl
  | cons s ss ih =>
    rw [parts, flatMap_cons, read_part]
    exact (ih _).trans (by simp)

@[simp] theorem read?_parts (ss : List Bytes) : read? (parts ss) = some ss := read_parts [] ss

@[simp] theorem text?_text (s : String) : text? (text s) = some s := by
  rw [text?, text, Utf8.toString_ofString]

@[simp] theorem nat?_nat (n : Nat) : nat? (nat n) = some n := by
  rw [nat?, nat, text, Utf8.toString_ofString, Nat.toNat?_repr]

@[simp] theorem int?_int (v : Int) : int? (int v) = some v := by
  rw [int?, int, text, Utf8.toString_ofString, Int.toInt?_repr]

theorem all?_parts {α : Type} {item : Bytes → Option α} {form : α → Bytes} (h : ∀ a, item (form a) = some a)
    (as : List α) : all? item (parts (as.map form)) = some as := by
  rw [all?, read?_parts]
  change (as.map form).mapM item = some as
  induction as with
  | nil => rfl
  | cons a as ih => rw [map_cons, mapM_cons, h, ih]; rfl

/-! ### Diagnostics -/

@[simp] theorem location?_location (l : Location) : location? (location l) = some l := by
  simp [location?, location]

@[simp] theorem span?_span (s : Span) : span? (span s) = some s := by
  simp [span?, span]

@[simp] theorem note?_note (n : Note) : note? (note n) = some n := by
  simp [note?, note]

@[simp] theorem edit?_edit (e : Edit) : edit? (edit e) = some e := by
  simp [edit?, edit]

@[simp] theorem fix?_fix (f : Fix) : fix? (fix f) = some f := by
  simp [fix?, fix, all?_parts edit?_edit]

@[simp] theorem severity?_name (s : Severity) : severity? (text s.name) = some s := by
  rw [severity?, text?_text]
  cases s <;> rfl

@[simp] theorem diagnostic?_diagnostic (d : Diagnostic) : diagnostic? (diagnostic d) = some d := by
  simp_all [diagnostic?, diagnostic, all?_parts]

/-! ### Programs -/

theorem eq_of_readAll {is js : List Instruction} {bs : Bytes} (hp : Instruction.areProper is)
    (hw : Wire.writeAll is = .ok bs) (hr : Wire.readAll bs = .ok js) : js = is := by
  have hfuel := Wire.length_le_of_writeAll hp hw
  rw [Wire.readAll] at hr
  by_cases hd : Instruction.depthAll is ≤ Wire.maxDepth
  · rw [Wire.readFrom_writeAll hp hd hfuel hw] at hr
    exact (Except.ok.inj hr).symm
  · obtain ⟨f, he⟩ := Wire.readFrom_too_deep hp (Nat.lt_of_not_le hd) hfuel hw
    rw [he] at hr
    cases hr

theorem lawful : format.Lawful := by
  intro key own b found content hp hw hf
  obtain ⟨program, hprogram, hcontent⟩ := Wire.bind_eq_ok.mp hw
  cases hcontent
  simp only [format, find?, bne_self_eq_false, Bool.false_eq_true, if_false, read?_parts, nat?_nat,
    all?_parts diagnostic?_diagnostic, Option.bind_eq_bind, Option.bind_some, Bool.false_or] at hf
  split at hf
  · cases hf
  · rename_i hkey
    rw [bne_iff_ne, not_not] at hkey
    obtain ⟨code, hcode, hfound⟩ := Option.bind_eq_some_iff.mp hf
    have hread : Wire.readAll program = .ok code := by
      cases hr : Wire.readAll program with
      | error e => rw [hr] at hcode; cases hcode
      | ok js => rw [hr] at hcode; exact congrArg Except.ok (Option.some.inj hcode)
    cases hfound
    rw [eq_of_readAll hp hprogram hread]
    exact ⟨congrArg Digest.mk hkey, rfl⟩

end Entry

end Parlance
