import Parlance.Proofs.Evaluations
/-!
Integers keep to their kinds: no machine has an integer that its kind does not hold, and no sum is cut.
-/
namespace Parlance

namespace IntWidth

variable {v w : Int} {k : IntWidth}

def within (a b : IntWidth) : Bool :=
  match a.bits?, b.bits? with
  | _, none => b.isSigned || !a.isSigned
  | none, some _ => false
  | some m, some n => if a.isSigned == b.isSigned then m ≤ n else b.isSigned && m < n

theorem fits_of_within {a b : IntWidth} (h : a.within b) (hv : a.fits v) : b.fits v := by
  have hpow {m n : Nat} (hmn : m ≤ n) : (0 : Int) < 2 ^ m ∧ (2 : Int) ^ m ≤ 2 ^ n := by
    have hle : 2 ^ m ≤ 2 ^ n := Nat.pow_le_pow_right (by decide) hmn
    exact ⟨Int.pow_pos (by decide), by exact_mod_cast hle⟩
  unfold within at h
  unfold fits at hv ⊢
  generalize a.bits? = m, b.bits? = n, a.isSigned = p, b.isSigned = q at *
  cases n with
  | none =>
    cases m <;> cases p <;> cases q <;> simp_all
  | some n =>
    cases m with
    | none => cases h
    | some m =>
      cases p <;> cases q <;> simp at h hv ⊢
      · have := hpow h
        omega
      · have := hpow (Nat.le_sub_one_of_lt h)
        omega
      · have := hpow (Nat.sub_le_sub_right h 1)
        omega

theorem within_join (a b : IntWidth) : a.within (a.join b) := by
  cases a <;> cases b <;> rfl

theorem join_comm (a b : IntWidth) : a.join b = b.join a := by
  cases a <;> cases b <;> rfl

theorem fits_join {a : IntWidth} (h : a.fits v) (b : IntWidth) : (a.join b).fits v :=
  fits_of_within (within_join a b) h

def doubled? (w : IntWidth) : Option Nat :=
  w.bits?.bind fun n => if n ≤ 64 then some (2 * n) else none

/-- The kinds that a result of a kind may have. -/
inductive Holding (k : IntWidth) (r : Int) : IntWidth → Prop where
  | same : Holding k r k
  | next : Holding k r k.next
  | signed {k' : IntWidth} (hk : k.isSigned = false) (hr : r < 0) (hsign : k'.isSigned)
    (hbits : k'.bits? = k.doubled?) : Holding k r k'

theorem holding_wider (k : IntWidth) (r : Int) : Holding k r (k.wider r) := by
  unfold wider
  split
  · rename_i h
    obtain ⟨hk, hr⟩ := Bool.and_eq_true_iff.mp h
    refine .signed (by simpa using hk) (of_decide_eq_true hr) ?_ ?_
    · cases k <;> rfl
    · cases k <;> rfl
  · exact .next

/-- One kind more is enough for a sum or a difference. -/
theorem fits_wider (hv : k.fits v) (hw : k.fits w) (op : Machine.Operation)
    (hr : k.fits (op.onInt v w) = false) : (k.wider (op.onInt v w)).fits (op.onInt v w) := by
  have hbound : op.onInt v w = v + w ∨ op.onInt v w = v - w := by
    cases op <;> simp [Machine.Operation.onInt]
  generalize op.onInt v w = r at *
  cases k <;> simp [fits, bits?, bytes?, isSigned] at hv hw hr
  all_goals
    unfold wider
    split
    · simp_all [fits, bits?, bytes?, isSigned, ofBits]
      try omega
    · simp_all [fits, bits?, bytes?, isSigned, next]
      try omega

theorem widen_of_fits {r : Int} (h : k.fits r) : k.widen r = k := by
  rw [widen, widenFor, if_pos h]

theorem widen_of_wider {r : Int} (h : k.fits r = false) (h' : (k.wider r).fits r) :
    k.widen r = k.wider r := by grind [widen, widenFor]

theorem widen_sum (hv : k.fits v) (hw : k.fits w) (op : Machine.Operation) :
    (k.widen (op.onInt v w)).fits (op.onInt v w) ∧
      Holding k (op.onInt v w) (k.widen (op.onInt v w)) := by
  cases hr : k.fits (op.onInt v w) with
  | true =>
    rw [widen_of_fits hr]
    exact ⟨hr, .same⟩
  | false => grind [fits_wider, widen_of_wider, holding_wider]

theorem widen_join {l : IntWidth} (hv : k.fits v) (hw : l.fits w) (op : Machine.Operation) :
    ((k.join l).widen (op.onInt v w)).fits (op.onInt v w) ∧
      Holding (k.join l) (op.onInt v w) ((k.join l).widen (op.onInt v w)) :=
  widen_sum (fits_join hv l) (join_comm l k ▸ fits_join hw k) op

end IntWidth

namespace Machine

variable {k : IntWidth}

/-! ### Results -/

theorem operate_int (op : Operation) (k l : IntWidth) (v w : Int) : operate op (.int k v) (.int l w) =
    .ok (.int ((k.join l).widen (op.onInt v w)) (op.onInt v w)) := rfl

theorem Domain.withInteger_ne (f : Domain) (w w' : IntWidth) : f.withInteger w ≠ .int w' := by
  unfold withInteger
  split
  · split
    · nofun
    · split <;> nofun
  · split <;> nofun
  · nofun

theorem Domain.join_eq_int {a b : Domain} (h : a.join b = .int k) : ∃ l m, a = .int l ∧ b = .int m ∧ k = l.join m := by
  unfold join at h
  grind [withInteger_ne]

theorem Domain.of?_eq_int {p : Payload} (h : Domain.of? p = some (.int k)) : ∃ v, p = .int k v := by
  cases p with
  | int =>
    cases h
    exact ⟨_, rfl⟩
  | _ => cases h

def Payload.Fits : Payload → Prop
  | .int k v => k.fits v
  | _ => True

theorem Payload.Fits.operate {op : Operation} {a b p : Payload} (ha : a.Fits) (hb : b.Fits)
    (h : operate op a b = .ok p) : p.Fits := by
  unfold Machine.operate at h
  split at h
  · rename_i x y hx hy
    split at h
    · cases h
      exact True.intro
    · cases h
      exact True.intro
    · split at h <;> cases h
      exact True.intro
    · rename_i hjoin
      obtain ⟨k, l, rfl, rfl, rfl⟩ := Domain.join_eq_int hjoin
      obtain ⟨v, rfl⟩ := Domain.of?_eq_int hx
      obtain ⟨w, rfl⟩ := Domain.of?_eq_int hy
      cases h
      exact (IntWidth.widen_join ha hb op).1
  · cases h

/-! ### Machines -/

mutual

def fitting : Instruction → Bool
  | .constInt k v => k.fits v
  | .loadLazy _ body => allFitting body
  | _ => true

def allFitting : List Instruction → Bool
  | [] => true
  | i :: is => fitting i && allFitting is

end

theorem allFitting_iff {is : List Instruction} : allFitting is ↔ ∀ i ∈ is, fitting i := by
  induction is with
  | nil => simp [allFitting]
  | cons i is ih => simp [allFitting, ih]

def fits : Law where
  payload := Payload.Fits
  cls _ := True
  code i := fitting i
  calls _ := True

theorem fits_kept (limit : Nat) : fits.Kept limit where
  plain := True.intro
  lazy _ := True.intro
  constant {i p} hi hp := by
    cases i with
    | constInt =>
      cases hp
      exact hi
    | _ =>
      cases hp
      try exact True.intro
  computed := Payload.Fits.operate
  declared _ := True.intro
  body h := allFitting_iff.mp h
  call _ _ _ := True.intro

def Operation.native : Operation → Native
  | plus => .plus
  | minus => .minus

theorem supply_operation (op : Operation) {s : State} {a b : Object} {l : IntWidth} {v w : Int} {c : ClassRef}
    (ha : a.payload = .int k v) (hb : b.payload = .int l w)
    (hc : s.marks.lookup (.int ((k.join l).widen (op.onInt v w))) = some c) (calls : Calls) :
    supply (.operand op.native a) b calls s = .ok (.ahead []) { s with
      made := s.made + 1
      stack := .mk s.made (some c) (.int ((k.join l).widen (op.onInt v w)) (op.onInt v w)) [] :: s.stack } := by
  have hplain : cell? b = none := by
    rw [cell?, hb]
  have hcompute : compute op.native a b calls =
      boxed (.int ((k.join l).widen (op.onInt v w)) (op.onInt v w)) := by
    cases op <;> simp only [compute, Operation.native, ha, hb, operate_int]
  have hbox : boxed (.int ((k.join l).widen (op.onInt v w)) (op.onInt v w)) s = _ := box_marked hc _
  rw [supply, supplyOperand, force_plain hplain, hcompute, bind_of_ok hbox]
  rfl

/-- In every run of code with integers that fit their kinds, all integers fit their kinds; the kind for two
operands has the values of both, and their sum or difference is left exactly, in a kind that holds it. -/
theorem integers_exact (limit : Nat) :
    (∀ a b : IntWidth, a.join b = b.join a ∧ ∀ v, a.fits v = true → (a.join b).fits v = true) ∧
    (∀ s, Rests (fitting · = true) limit s → fits.Holds s) ∧
    (∀ ts s, Works (fitting · = true) limit ts s → fits.Holds s ∧ ∀ x ∈ ts, fits.OnTask x) ∧
    ∀ (op : Operation) (a b : Object) (k l k' : IntWidth) (v w r : Int), a.payload = .int k v →
      b.payload = .int l w → r = op.onInt v w → k' = (k.join l).widen r →
      (fits.Value a → fits.Value b → k'.fits r = true ∧ IntWidth.Holding (k.join l) r k') ∧
      ∀ (s : State) (c : ClassRef) (calls : Calls), s.marks.lookup (.int k') = some c →
        supply (.operand op.native a) b calls s = .ok (.ahead []) { s with
          made := s.made + 1, stack := .mk s.made (some c) (.int k' r) [] :: s.stack } ∧
        ∀ is ts below, s.stack = a :: b :: below → step (.run (.callNative op.native :: is) calls :: ts) s =
          .ok (.go (.run is calls :: ts)) { s with
            made := s.made + 1, stack := .mk s.made (some c) (.int k' r) [] :: below } := by
  have hkept := fits_kept limit
  refine ⟨fun a b => ⟨IntWidth.join_comm a b, fun v hv => IntWidth.fits_join hv b⟩,
    fun s hs => (Law.rests hkept True.intro (fun _ hi => hi) hs).1, fun ts s hs => ?_, ?_⟩
  · obtain ⟨hs, hts, -⟩ := Law.works hkept True.intro (fun _ hi => hi) hs
    exact ⟨hs, hts⟩
  · rintro op a b k l _ v w _ ha hb rfl rfl
    refine ⟨fun hva hvb => ?_, fun s c calls hc => ⟨supply_operation op ha hb hc calls, fun is ts below hs => ?_⟩⟩
    · have hpa : fits.payload (.int k v) := ha ▸ hva.payload
      have hpb : fits.payload (.int l w) := hb ▸ hvb.payload
      exact IntWidth.widen_join hpa hpb op
    · have hplain : cell? a = none := by rw [cell?, ha]
      exact step_native hs hplain (supply_operation (s := s.withStack below) op ha hb hc s.calls) is ts

theorem integers_exact_run : fits.Holds (endState (eval [.declareClass 4 [], .markClass (.int .u8) 4, .constInt .u8 255,
        .loadLazy 0 [.constInt .iBig (-7)]] (.fresh 9))) ∧
      supply (.operand .minus (.mk 0 none (.int .u64 3) [])) (.mk 1 none (.int .u8 5) []) .none
          { State.fresh 9 with marks := [(.int .i128, ⟨4, []⟩)] } =
        .ok (.ahead []) { State.fresh 9 with
          marks := [(.int .i128, ⟨4, []⟩)]
          made := 1
          stack := [.mk 0 (some ⟨4, []⟩) (.int .i128 (-2)) []] } :=
  ⟨(integers_exact 9).2.1 _ (.eval .fresh (by decide)),
    (((integers_exact 9).2.2.2 .minus (.mk 0 none (.int .u64 3) []) (.mk 1 none (.int .u8 5) []) .u64 .u8 .i128 3 5
      (-2) rfl rfl rfl rfl).2 _ _ .none rfl).1⟩

end Machine

end Parlance
