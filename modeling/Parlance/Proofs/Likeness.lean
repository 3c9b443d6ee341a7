import Parlance.Proofs.Contents
/-!
When the machine calls two values equal. A variable that holds a lazy value is equal only to that very lazy
value, whatever comes of it.
-/
namespace Parlance.Machine

variable {cells : Array Cell} {a b : Object}

/-- The values are one, or have the same class and hold the same, with each lazy part taken for what was worked
out. -/
inductive Alike (cells : Array Cell) : Object → Object → Prop where
  | self {a b : Object} (h : a.serial = b.serial) : Alike cells a b
  | left {a b v : Object} {cell : Nat} (ha : cell? a = some cell) (hv : cells[cell]? = some (.done v))
    (h : Alike cells v b) : Alike cells a b
  | right {a b w : Object} {cell : Nat} (hb : cell? b = some cell) (hw : cells[cell]? = some (.done w))
    (h : Alike cells a w) : Alike cells a b
  | held {a b : Object} (ha : cell? a = none) (hplain : a.payload ≠ .plain) (hc : a.cls = b.cls)
    (hp : a.payload.same b.payload) : Alike cells a b
  | plain {a b : Object} (ha : a.payload = .plain) (hb : b.payload = .plain) (hc : a.cls = b.cls)
    (hlen : a.slots.length = b.slots.length) (hset : ∀ e ∈ a.slots, (b.held? e.1).isSome)
    (h : ∀ e ∈ a.slots, ∀ w, b.held? e.1 = some w → Alike cells e.2 w) : Alike cells a b

theorem Object.sameVariables_iff {vs ws : List (UInt64 × Object)} :
    sameVariables vs ws ↔ ∀ e ∈ vs, ∃ w, ws.lookup e.1 = some w ∧ e.2.same w := by
  induction vs with
  | nil => simp [sameVariables]
  | cons e vs ih =>
    rw [sameVariables, Bool.and_eq_true, ih, List.forall_mem_cons]
    cases ws.lookup e.1 <;> simp

theorem Object.same_iff : a.same b ↔ a.serial = b.serial ∨
    (a.cls = b.cls ∧ a.payload.same b.payload ∧ (a.payload = .plain → a.slots.length = b.slots.length ∧
      ∀ e ∈ a.slots, ∃ w, b.held? e.1 = some w ∧ e.2.same w)) := by
  cases a
  cases b
  simp only [same, Bool.or_eq_true, Bool.and_eq_true, beq_iff_eq, bne_iff_ne, ne_eq, sameVariables_iff, serial, cls,
    payload, slots, held?, and_assoc, ← Decidable.imp_iff_not_or]

theorem Payload.same_plain {p : Payload} : Payload.plain.same p ↔ p = .plain := by
  cases p <;> simp [same]

theorem Payload.same_lazy {p : Payload} {cell : Nat} : (Payload.lazy cell).same p ↔ p = .lazy cell := by
  grind [same]

/-- Payloads throughout a value are as `P` says. -/
def throughout (P : Payload → Prop) : Law := ⟨P, fun _ => True, fun _ => True, fun _ => True⟩

def Payload.IsStrict (p : Payload) : Prop := p.kind ≠ .lazy

/-- A lazy value is worked out. -/
def Payload.IsKnown (cells : Array Cell) (p : Payload) : Prop :=
  ∀ cell, p = .lazy cell → ∃ v, cells[cell]? = some (.done v)

theorem alike_of_same (ha : (throughout (Payload.IsKnown cells)).Value a) (h : a.same b) : Alike cells a b := by
  induction ha generalizing b with
  | @mk serial cls payload slots hp _ _ ih =>
    obtain h | ⟨hc, hsame, hvars⟩ := Object.same_iff.mp h
    · exact .self h
    by_cases hplain : payload = .plain
    · subst hplain
      obtain ⟨hlen, hvars⟩ := hvars rfl
      refine .plain rfl (Payload.same_plain.mp hsame) hc hlen (fun e he => ?_) fun e he w hw => ?_
      · grind
      · obtain ⟨w', hw', hsame⟩ := hvars e he
        exact ih e he (Option.some.inj (hw'.symm.trans hw) ▸ hsame)
    cases hcell : cell? (.mk serial cls payload slots) with
    | none => exact .held hcell hplain hc hsame
    | some cell =>
      obtain rfl : payload = .lazy cell := cell?_eq_some.mp hcell
      obtain ⟨v, hv⟩ := hp cell rfl
      exact .left rfl hv (.right (cell?_eq_some.mpr (Payload.same_lazy.mp hsame)) hv (.self rfl))

theorem same_of_alike (h : Alike cells a b) (ha : (throughout Payload.IsStrict).Value a)
    (hb : (throughout Payload.IsStrict).Value b) : a.same b := by
  have hstrict {o : Object} {cell : Nat} (ho : (throughout Payload.IsStrict).Value o) : cell? o ≠ some cell :=
    fun hcell => ho.payload (by rw [cell?_eq_some.mp hcell]; rfl)
  rw [Object.same_iff]
  induction h with
  | self h => exact .inl h
  | left h => exact absurd h (hstrict ha)
  | right h => exact absurd h (hstrict hb)
  | held _ hplain hc hp => exact .inr ⟨hc, hp, fun h => absurd h hplain⟩
  | plain hpa hpb hc hlen hset _ ih =>
    refine .inr ⟨hc, hpa ▸ Payload.same_plain.mpr hpb, fun _ => ⟨hlen, fun e he => ?_⟩⟩
    obtain ⟨w, hw⟩ := Option.isSome_iff_exists.mp (hset e he)
    cases ha with
    | mk _ _ hs => exact ⟨w, hw, Object.same_iff.mpr (ih e he w hw (hs e he) (hb.held hw))⟩

/-- The answer to whether two values are equal, and what it says about what they come to. -/
theorem equal_alike (cells : Array Cell) (a b : Object) :
    (∀ s below c calls is ts, s.stack = a :: b :: below → cell? a = none → cell? b = none →
      s.marks.lookup (if a.same b then .true else .false) = some c →
      step (.run (.callNative .equal :: is) calls :: ts) s = .ok (.go (.run is calls :: ts)) { s with
        made := s.made + 1, stack := .mk s.made (some c) .plain [] :: below }) ∧
    ((throughout (Payload.IsKnown cells)).Value a → a.same b = true → Alike cells a b) ∧
    ((throughout Payload.IsStrict).Value a → (throughout Payload.IsStrict).Value b →
      (a.same b = true ↔ Alike cells a b)) ∧
    ∀ cell, cell? a = some cell →
      (a.same b = true ↔ a.serial = b.serial ∨ (a.cls = b.cls ∧ cell? b = some cell)) := by
  refine ⟨fun s below c calls is ts hs ha hb hc => ?_, alike_of_same, fun ha hb => ?_, fun cell hcell => ?_⟩
  · refine step_native hs ha ?_ is ts
    have hbox : compute .equal a b s.calls (s.withStack below) = _ :=
      box_marked (s := s.withStack below) hc .plain
    rw [supply, supplyOperand, force_plain hb, bind_of_ok hbox]
    rfl
  · have hle : (throughout Payload.IsStrict).Le (throughout (Payload.IsKnown cells)) :=
      ⟨fun p hp cell h => absurd (congrArg Payload.kind h) hp, fun _ => id, fun _ => id, fun _ => id⟩
    exact ⟨alike_of_same (hle.value ha), fun h => same_of_alike h ha hb⟩
  · rw [Object.same_iff, cell?_eq_some.mp hcell, Payload.same_lazy, cell?_eq_some]
    simp

/-- Two values that each hold a lazy 3: they are alike, and equal only if the lazy value is the same. -/
theorem equal_alike_lazy : let three (serial : Nat) : Object := .mk serial none (.int .u8 3) []
    let cells : Array Cell := #[.done (three 0), .done (three 1)]
    let holder (serial cell : Nat) : Object := .mk serial none .plain [(7, .mk (serial + 1) none (.lazy cell) [])]
    Alike cells (holder 2 0) (holder 4 1) ∧ (holder 2 0).same (holder 4 1) = false ∧
      Alike cells (holder 2 0) (holder 6 0) := by
  intro three cells holder
  refine ⟨.plain rfl rfl rfl rfl (by decide) ?_, rfl, (equal_alike ..).2.1 ?_ rfl⟩
  · rintro e he w hw
    obtain rfl := List.mem_singleton.mp he
    obtain rfl := Option.some.inj hw
    exact .left rfl rfl (.right rfl rfl (.held rfl nofun rfl rfl))
  · refine .mk nofun nofun fun e he => ?_
    obtain rfl := List.mem_singleton.mp he
    exact .mk (fun cell hcell => ⟨three 0, by cases hcell; rfl⟩) nofun nofun

end Parlance.Machine
