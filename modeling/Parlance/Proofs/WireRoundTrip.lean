import Mathlib.Data.Rat.Lemmas
import Mathlib.Tactic.Ring
import Parlance.Instruction.Wire
/-!
What is written can be read again. Writing sets no bound on how deep lazy bodies lie within each other, reading
does; this is the only difference between the two.
-/
namespace Parlance

open List

namespace Instruction

mutual

def depth : Instruction → Nat
  | loadLazy _ body => depthAll body + 1
  | _ => 0

def depthAll : List Instruction → Nat
  | [] => 0
  | i :: is => max (depth i) (depthAll is)

end

mutual

def isProper : Instruction → Bool
  | constCharacter c => c < 0x80000000
  | constF32 bits => Binary.decode .single bits.toNat != .nan
  | constF64 bits => Binary.decode .double bits.toNat != .nan
  | loadLazy _ body => areProper body
  | _ => true

def areProper : List Instruction → Bool
  | [] => true
  | i :: is => isProper i && areProper is

end

@[simp] theorem areProper_append (is js : List Instruction) :
    areProper (is ++ js) = (areProper is && areProper js) := by
  induction is with
  | nil => rfl
  | cons i is ih => rw [cons_append, areProper, areProper, ih, Bool.and_assoc]

end Instruction

namespace Wire

variable {α β : Type} {bs cs : Bytes} {d fuel index n : Nat} {i : Instruction} {is : List Instruction} {s : Step α}
  {w : IntWidth} {v : Int} {a : α} {width : Nat} {isSigned : Bool} {lazy : Step Instruction}

/-! ### Readers that take exactly some bytes -/

/-- The reader takes the bytes off the front of whatever follows, and they stand for `a`. -/
def Reads (s : Step α) (bs : Bytes) (a : α) : Prop := ∀ rest, s (bs ++ rest) = .ok (a, rest)

theorem Reads.pure (a : α) : Reads (pure a) [] a := fun _ => rfl

theorem Reads.bind {f : α → Step β} {b : β}
    (h : Reads s bs a) (hf : Reads (f a) cs b) : Reads (s >>= f) (bs ++ cs) b := by
  intro rest
  have hs := h (cs ++ rest)
  simp only [Bind.bind, StateT.bind, append_assoc, hs, Except.bind]
  exact hf rest

theorem Reads.map (f : α → β) (h : Reads s bs a) : Reads (s >>= fun x => Pure.pure (f x)) bs (f a) := by
  have hb := Reads.bind (f := fun x => Pure.pure (f x)) h (Reads.pure (f a))
  rwa [append_nil] at hb

theorem bind_eq_ok {ε : Type} {x : Except ε α} {f : α → Except ε β} {b : β} :
    x >>= f = .ok b ↔ ∃ a, x = .ok a ∧ f a = .ok b := by
  cases x with
  | error e => simp [Bind.bind, Except.bind]
  | ok a => simp [Bind.bind, Except.bind]

/-! ### Numbers -/

@[simp] theorem length_bigEndian (width n : Nat) : (bigEndian width n).length = width := by
  induction width generalizing n with
  | zero => rfl
  | succ width ih => simp [bigEndian, ih]

theorem ofBigEndian_snoc (bs : Bytes) (b : UInt8) : ofBigEndian (bs ++ [b]) = ofBigEndian bs * 256 + b.toNat := by
  simp [ofBigEndian]

theorem ofBigEndian_bigEndian (h : n < 256 ^ width) : ofBigEndian (bigEndian width n) = n := by
  induction width generalizing n with
  | zero =>
    have hn : n = 0 := by simpa using h
    subst hn
    rfl
  | succ width ih => grind [UInt8.toNat_ofNat_of_lt', bigEndian, ofBigEndian_snoc]

theorem lt_pow_byteLength (n : Nat) : n < 256 ^ byteLength n := by
  unfold byteLength
  split
  · rename_i hn
    simp [hn]
  · have hl := Nat.lt_log2_self (n := n)
    have hp : (256 : Nat) ^ (n.log2 / 8 + 1) = 2 ^ (8 * (n.log2 / 8 + 1)) := by
      rw [Nat.pow_mul]
    rw [hp]
    exact lt_of_lt_of_le hl (Nat.pow_le_pow_right (by decide) (by omega))

theorem reads_take (bs : Bytes) : Reads (take bs.length) bs bs := by
  intro rest
  simp [take]

theorem reads_byte (b : UInt8) : Reads byte [b] b := fun _ => rfl

theorem reads_number (h : n < 256 ^ width) : Reads (number width) (bigEndian width n) n := by
  have ht := reads_take (bigEndian width n)
  rw [length_bigEndian] at ht
  have hm := Reads.map ofBigEndian ht
  rwa [ofBigEndian_bigEndian h] at hm

theorem reads_u16 (n : UInt16) : Reads readU16 (u16 n) n := by
  have hn : n.toNat < 256 ^ 2 := n.toNat_lt
  have hm := Reads.map Nat.toUInt16 (reads_number hn)
  rwa [Nat.toUInt16_eq, UInt16.ofNat_toNat] at hm

theorem reads_u32 (n : UInt32) : Reads readU32 (u32 n) n := by
  have hn : n.toNat < 256 ^ 4 := n.toNat_lt
  have hm := Reads.map Nat.toUInt32 (reads_number hn)
  rwa [Nat.toUInt32_eq, UInt32.ofNat_toNat] at hm

theorem reads_u64 (n : UInt64) : Reads readU64 (u64 n) n := by
  have hn : n.toNat < 256 ^ 8 := n.toNat_lt
  have hm := Reads.map Nat.toUInt64 (reads_number hn)
  rwa [Nat.toUInt64_eq, UInt64.ofNat_toNat] at hm

/-! ### Strings and numbers of any size -/

theorem reads_string {s : Bytes} (h : writeString s = .ok bs) : Reads readString bs s := by
  unfold writeString at h
  split at h
  · rename_i hl
    cases h
    have hlen : s.length < 256 ^ 2 := hl
    exact Reads.bind (reads_number hlen) (reads_take s)
  · cases h

theorem reads_magnitude (h : writeMagnitude n = .ok bs) : Reads readMagnitude bs n := by
  have hm := Reads.map ofBigEndian (reads_string h)
  rwa [ofBigEndian_bigEndian (lt_pow_byteLength n)] at hm

theorem reads_sign (negative : Bool) : Reads readSign (writeSign negative) negative := by
  cases negative <;> exact fun _ => rfl

theorem signed_natAbs (v : Int) : signed (decide (v < 0)) v.natAbs = v := by grind [signed]

theorem two_pow_bits (hn : 0 < n) : (Nat.pow 2 (8 * n) : Int) = 2 * (Nat.pow 2 (8 * n - 1) : Int) := by
  obtain ⟨j, hj⟩ : ∃ j, 8 * n = j + 1 := ⟨8 * n - 1, by omega⟩
  rw [hj, Nat.add_sub_cancel, Nat.pow_eq, Nat.pow_eq, Nat.pow_succ]
  push_cast
  omega

theorem writeFixed_eq_ok : writeFixed n isSigned v = .ok bs ↔
    (limits n isSigned).1 ≤ v ∧ v < (limits n isSigned).2 ∧ bigEndian n (v % Nat.pow 2 (8 * n)).toNat = bs := by
  grind [writeFixed]

theorem reads_fixed (hn : 0 < n) (h : writeFixed n isSigned v = .ok bs) : Reads (readFixed n isSigned) bs v := by
  obtain ⟨hlow, hhigh, rfl⟩ := writeFixed_eq_ok.mp h
  have hpow := two_pow_bits hn
  have hpos : (0 : Int) < (Nat.pow 2 (8 * n - 1) : Int) := by
    exact_mod_cast Nat.pos_of_ne_zero (by simp)
  have hlt := Int.emod_lt_of_pos v (b := (Nat.pow 2 (8 * n) : Int)) (by omega)
  have hge := Int.emod_nonneg v (b := (Nat.pow 2 (8 * n) : Int)) (by omega)
  have h256 : (256 : Nat) ^ n = Nat.pow 2 (8 * n) := by
    rw [Nat.pow_eq, Nat.pow_mul]
  have hm := Reads.map (fun m : Nat =>
    if (m : Int) < (limits n isSigned).2 then (m : Int) else (m : Int) - Nat.pow 2 (8 * n))
    (show Reads (number n) _ (v % Nat.pow 2 (8 * n)).toNat from reads_number (by omega))
  have hv : (if ((v % Nat.pow 2 (8 * n)).toNat : Int) < (limits n isSigned).2
      then ((v % Nat.pow 2 (8 * n)).toNat : Int)
      else ((v % Nat.pow 2 (8 * n)).toNat : Int) - (Nat.pow 2 (8 * n) : Int)) = v := by
    rw [Int.toNat_of_nonneg hge]
    cases isSigned with
    | false => simp_all [limits, Int.emod_eq_of_lt]
    | true =>
      simp only [limits, if_true] at hlow hhigh ⊢
      by_cases h0 : 0 ≤ v
      · rw [Int.emod_eq_of_lt h0 (by omega), if_pos hhigh]
      · have hs : v % (Nat.pow 2 (8 * n) : Int) = v + (Nat.pow 2 (8 * n) : Int) := by
          rw [← Int.add_emod_right, Int.emod_eq_of_lt (by omega) (by omega)]
        rw [hs, if_neg (by omega)]
        omega
  rwa [hv] at hm

theorem bytes?_pos (h : w.bytes? = some n) : 0 < n := by
  cases w <;> cases h <;> decide

theorem integer_of_bytes? (h : w.bytes? = some n) :
    writeInteger w = writeFixed n w.isSigned ∧ readInteger w = readFixed n w.isSigned := by
  cases w <;> cases h <;> exact ⟨rfl, rfl⟩

theorem reads_integer (h : writeInteger w v = .ok bs) : Reads (readInteger w) bs v := by
  cases hb : w.bytes? with
  | some n =>
    rw [(integer_of_bytes? hb).1] at h
    rw [(integer_of_bytes? hb).2]
    exact reads_fixed (bytes?_pos hb) h
  | none =>
    cases w with
    | uBig =>
      simp only [writeInteger, IntWidth.bytes?] at h
      split at h
      · cases h
      · rename_i hv
        have hm := Reads.map (fun m : Nat => (m : Int)) (reads_magnitude h)
        rwa [Int.natAbs_of_nonneg (by omega)] at hm
    | iBig =>
      simp only [writeInteger, IntWidth.bytes?] at h
      obtain ⟨ms, hms, hbs⟩ := bind_eq_ok.mp h
      cases hbs
      have hm : Reads (readInteger .iBig) (writeSign (decide (v < 0)) ++ ms)
          (signed (decide (v < 0)) v.natAbs) :=
        Reads.bind (reads_sign (decide (v < 0))) (Reads.map _ (reads_magnitude hms))
      rwa [signed_natAbs] at hm
    | _ => cases hb

theorem reads_rational {r : Rat} {ns ds : Bytes} (hn : writeMagnitude r.num.natAbs = .ok ns)
    (hd : writeMagnitude r.den = .ok ds) :
    Reads readRational (rationalTag :: writeSign (decide (r.num < 0)) ++ ns ++ ds) r := by
  have hr : mkRat (signed (decide (r.num < 0)) r.num.natAbs) r.den = r := by
    rw [signed_natAbs, Rat.mkRat_self]
  have hend : Reads (do
      if r.den = 0 then fail .zeroDenominator
      pure (mkRat (signed (decide (r.num < 0)) r.num.natAbs) r.den)) [] r := by
    intro rest
    simp only [r.den_nz, if_false, hr]
    rfl
  have hden := Reads.bind (f := fun den => do
      if den = 0 then fail .zeroDenominator
      pure (mkRat (signed (decide (r.num < 0)) r.num.natAbs) den)) (reads_magnitude hd) hend
  have hall : Reads readRational
      ([rationalTag] ++ (writeSign (decide (r.num < 0)) ++ (ns ++ (ds ++ [])))) r :=
    Reads.bind (reads_byte rationalTag)
      (Reads.bind (reads_sign (decide (r.num < 0))) (Reads.bind (reads_magnitude hn) hden))
  simpa using hall

theorem reads_native (n : Native) : Reads readNative [(Native.all.idxOf n).toUInt8] n := by
  cases n <;> exact fun _ => rfl

theorem reads_character {c : UInt32} (h : c < 0x80000000) : Reads readCharacter (u32 c) c := by
  have hend : Reads (if c < 0x80000000 then Pure.pure c else fail .character) [] c := by
    intro rest
    simp only [h, if_true]
    rfl
  have hb := Reads.bind (f := fun c => if c < 0x80000000 then Pure.pure c else fail .character)
    (reads_u32 c) hend
  rwa [append_nil] at hb

theorem quiet_eq {bits : UInt32} (h : Binary.decode .single bits.toNat ≠ .nan) : quiet bits = bits := by
  unfold quiet
  split
  · contradiction
  · rfl

/-! ### Instructions -/

theorem opOfTag?_tag (op : Op) : opOfTag? (tag op) = some op := by
  cases op with
  | markClass m => cases m with
    | int w => cases w <;> decide
    | _ => decide
  | constInt w => cases w <;> decide
  | _ => decide

/-- Every instruction but a lazy value is its tag and operands that are read back, however lazy values
are read. -/
theorem reads_operands (lazy : Step Instruction) (hp : i.isProper) (h : write i = .ok bs) (hl : i.op ≠ .loadLazy) :
    ∃ cs, bs = tag i.op :: cs ∧ Reads (operands lazy i.op) cs i := by
  cases i with
  | noop | halt | panic | endMethod =>
    cases h
    exact ⟨[], rfl, Reads.pure _⟩
  | declareClass id name | declareVariable id name | beginMethod id name =>
    obtain ⟨ns, hn, hb⟩ := bind_eq_ok.mp h
    cases hb
    exact ⟨_, rfl, Reads.bind (reads_u64 id) (Reads.map _ (reads_string hn))⟩
  | inheritMethod source target hash =>
    cases h
    refine ⟨u64 source ++ (u64 target ++ u64 hash), by simp, ?_⟩
    exact Reads.bind (reads_u64 source) (Reads.bind (reads_u64 target) (Reads.map _ (reads_u64 hash)))
  | loadObject id | storeGlobal id | loadGlobal id | markClass m id =>
    cases h
    exact ⟨_, rfl, Reads.map _ (reads_u64 id)⟩
  | loadLocal n | dropLocal n | return_ n | returnLazy n =>
    cases h
    exact ⟨_, rfl, Reads.map _ (reads_u16 n)⟩
  | callMethod hash uri line character =>
    obtain ⟨us, hu, hb⟩ := bind_eq_ok.mp h
    cases hb
    refine ⟨u64 hash ++ (us ++ (u32 line ++ u32 character)), by simp, ?_⟩
    exact Reads.bind (reads_u64 hash) (Reads.bind (reads_string hu)
      (Reads.bind (reads_u32 line) (Reads.map _ (reads_u32 character))))
  | callNative n =>
    cases h
    exact ⟨_, rfl, Reads.map _ (reads_native n)⟩
  | loadLazy arity body => exact absurd rfl hl
  | constString s | constSymbol s =>
    obtain ⟨ns, hn, hb⟩ := bind_eq_ok.mp h
    cases hb
    exact ⟨_, rfl, Reads.map _ (reads_string hn)⟩
  | constCharacter c =>
    cases h
    exact ⟨_, rfl, Reads.map _ (reads_character (by simpa [Instruction.isProper] using hp))⟩
  | constInt w v =>
    obtain ⟨ns, hn, hb⟩ := bind_eq_ok.mp h
    cases hb
    exact ⟨_, rfl, Reads.map _ (reads_integer hn)⟩
  | constF32 bits =>
    cases h
    have hq : quiet bits = bits := quiet_eq (by simpa [Instruction.isProper] using hp)
    have hm := Reads.map (fun b => Instruction.constF32 (quiet b)) (reads_u32 bits)
    rw [hq] at hm
    exact ⟨_, rfl, hm⟩
  | constF64 bits =>
    cases h
    exact ⟨_, rfl, Reads.map _ (reads_u64 bits)⟩
  | constFBig r =>
    obtain ⟨ns, hn, hb⟩ := bind_eq_ok.mp h
    obtain ⟨ds, hd, hb⟩ := bind_eq_ok.mp hb
    cases hb
    exact ⟨_, rfl, Reads.map _ (reads_rational hn hd)⟩

theorem reads_tagged {op : Op}
    (h : Reads (operands lazy op) cs i) : Reads (readUpTo.readWith lazy) (tag op :: cs) i := by
  refine Reads.bind (reads_byte (tag op)) fun rest => ?_
  simp only [opOfTag?_tag, inside, h rest]

theorem write_loadLazy {arity : UInt16} {body : List Instruction} (h : write (.loadLazy arity body) = .ok bs) :
    body.length < 256 ^ 4 ∧ ∃ cs, writeAll body = .ok cs ∧
      bs = tag .loadLazy :: (u16 arity ++ (bigEndian 4 body.length ++ cs)) := by
  simp only [write] at h
  split at h
  · rename_i hl
    obtain ⟨cs, hc, hb⟩ := bind_eq_ok.mp h
    simp_all [Instruction.op]
  · cases h

theorem reads_times {s : Step Instruction}
    (hs : ∀ i ∈ is, ∀ cs, write i = .ok cs → Reads s cs i) (h : writeAll is = .ok bs) :
    Reads (times s is.length) bs is := by
  induction is generalizing bs with
  | nil =>
    cases h
    exact Reads.pure []
  | cons i is ih =>
    obtain ⟨cs, hc, hb⟩ := bind_eq_ok.mp h
    obtain ⟨ds, hd, hb⟩ := bind_eq_ok.mp hb
    cases hb
    have hr := ih (fun j hj => hs j (mem_cons_of_mem _ hj)) hd
    exact Reads.bind (hs i mem_cons_self cs hc) (Reads.map _ hr)

theorem depth_le_of_mem (h : i ∈ is) : i.depth ≤ Instruction.depthAll is := by
  induction is with
  | nil => cases h
  | cons j is ih =>
    rw [Instruction.depthAll]
    grind

theorem isProper_of_mem (h : i ∈ is) (hp : Instruction.areProper is) : i.isProper := by
  induction is with
  | nil => cases h
  | cons j is ih => grind [Instruction.areProper]

/-- An instruction with lazy bodies no deeper than `d` is read back by a reader that goes `d` deep. -/
theorem reads_write (hp : i.isProper) (hd : i.depth ≤ d) (h : write i = .ok bs) : Reads (readUpTo d) bs i := by
  induction d generalizing i bs with
  | zero =>
    have hl : i.op ≠ .loadLazy := by
      intro hl
      cases i <;> simp_all [Instruction.op, Instruction.depth]
    obtain ⟨cs, rfl, hr⟩ := reads_operands (fail .tooDeep) hp h hl
    exact reads_tagged hr
  | succ d ih =>
    by_cases hl : i.op = .loadLazy
    · cases i with
      | loadLazy arity body =>
        obtain ⟨hlen, cs, hc, rfl⟩ := write_loadLazy h
        rw [Instruction.isProper] at hp
        rw [Instruction.depth] at hd
        have ht := reads_times (s := readUpTo d) (fun j hj js hw =>
          ih (isProper_of_mem hj hp) (by have := depth_le_of_mem hj; omega) hw) hc
        have ho : Reads (operands (do
              let arity ← readU16
              return .loadLazy arity (← times (readUpTo d) (← number 4))) .loadLazy)
            (u16 arity ++ (bigEndian 4 body.length ++ cs)) (.loadLazy arity body) :=
          Reads.bind (reads_u16 arity) (Reads.bind (reads_number hlen) (Reads.map _ ht))
        exact reads_tagged ho
      | _ => cases hl
    · obtain ⟨cs, rfl, hr⟩ := reads_operands _ hp h hl
      exact reads_tagged hr

/-! ### What lies too deep -/

/-- The reader turns the bytes down as nested too deeply, whatever follows them. -/
def Refuses (s : Step α) (bs : Bytes) : Prop :=
  ∀ rest, ∃ within, s (bs ++ rest) = .error ⟨within, .tooDeep⟩

theorem Refuses.after {f : α → Step β} (h : Reads s bs a) (hf : Refuses (f a) cs) : Refuses (s >>= f) (bs ++ cs) := by
  intro rest
  obtain ⟨within, hw⟩ := hf rest
  refine ⟨within, ?_⟩
  simp only [Bind.bind, StateT.bind, append_assoc, h (cs ++ rest), Except.bind]
  exact hw

theorem Refuses.before (h : Refuses s bs) (f : α → Step β) (cs : Bytes) : Refuses (s >>= f) (bs ++ cs) := by
  intro rest
  obtain ⟨within, hw⟩ := h (cs ++ rest)
  simp_all [Bind.bind, StateT.bind, Except.bind]

theorem refuses_tagged (h : Refuses lazy cs) : Refuses (readUpTo.readWith lazy) (tag .loadLazy :: cs) := by
  intro rest
  obtain ⟨within, hw⟩ := h rest
  refine ⟨.loadLazy :: within, ?_⟩
  have hb := reads_byte (tag .loadLazy) (cs ++ rest)
  simp only [readUpTo.readWith, Bind.bind, StateT.bind, cons_append, nil_append] at hb ⊢
  simp only [hb, Except.bind, opOfTag?_tag, inside, operands, hw]

theorem refuses_times {s : Step Instruction} (hr : ∀ i ∈ is, i.depth ≤ d → ∀ cs, write i = .ok cs → Reads s cs i)
    (hf : ∀ i ∈ is, d < i.depth → ∀ cs, write i = .ok cs → Refuses s cs)
    (hd : d < Instruction.depthAll is) (h : writeAll is = .ok bs) : Refuses (times s is.length) bs := by
  induction is generalizing bs with
  | nil => simp [Instruction.depthAll] at hd
  | cons i is ih =>
    obtain ⟨cs, hc, hb⟩ := bind_eq_ok.mp h
    obtain ⟨ds, hw, hb⟩ := bind_eq_ok.mp hb
    cases hb
    by_cases hi : d < i.depth
    · exact Refuses.before (hf i mem_cons_self hi cs hc) _ ds
    · have hi : i.depth ≤ d := by omega
      have hd : d < Instruction.depthAll is := by
        rw [Instruction.depthAll] at hd
        omega
      have ht := ih (fun j hj => hr j (mem_cons_of_mem _ hj))
        (fun j hj => hf j (mem_cons_of_mem _ hj)) hd hw
      have hn := Refuses.before ht (fun js => Pure.pure (i :: js)) []
      rw [append_nil] at hn
      exact Refuses.after (hr i mem_cons_self hi cs hc) hn

theorem refuses_write (hp : i.isProper) (hd : d < i.depth) (h : write i = .ok bs) : Refuses (readUpTo d) bs := by
  induction d generalizing i bs with
  | zero =>
    cases i with
    | loadLazy arity body =>
      obtain ⟨-, cs, -, rfl⟩ := write_loadLazy h
      exact refuses_tagged fun rest => ⟨[], rfl⟩
    | _ => simp [Instruction.depth] at hd
  | succ d ih =>
    cases i with
    | loadLazy arity body =>
      obtain ⟨hlen, cs, hc, rfl⟩ := write_loadLazy h
      rw [Instruction.isProper] at hp
      rw [Instruction.depth] at hd
      have ht := refuses_times (s := readUpTo d)
        (fun j hj hj' js hw => reads_write (isProper_of_mem hj hp) hj' hw)
        (fun j hj hj' js hw => ih (isProper_of_mem hj hp) hj' hw) (by omega) hc
      have hn := Refuses.before ht (fun js => Pure.pure (Instruction.loadLazy arity js)) []
      rw [append_nil] at hn
      exact refuses_tagged
        (Refuses.after (reads_u16 arity) (Refuses.after (reads_number hlen) hn))
    | _ => simp [Instruction.depth] at hd

/-! ### Streams -/

theorem write_ne_nil (hp : i.isProper) (h : write i = .ok bs) : bs ≠ [] := by
  rintro rfl
  by_cases hd : i.depth ≤ 0
  · have hr := reads_write hp hd h []
    cases hr
  · obtain ⟨within, hw⟩ := refuses_write hp (Nat.lt_of_not_le hd) h []
    cases hw

theorem length_le_of_writeAll (hp : Instruction.areProper is) (h : writeAll is = .ok bs) : is.length ≤ bs.length := by
  induction is generalizing bs with
  | nil => simp
  | cons i is ih =>
    obtain ⟨cs, hc, hb⟩ := bind_eq_ok.mp h
    obtain ⟨ds, hd, hb⟩ := bind_eq_ok.mp hb
    cases hb
    rw [Instruction.areProper, Bool.and_eq_true] at hp
    have hcs := length_pos_iff.mpr (write_ne_nil hp.1 hc)
    grind

theorem readFrom_append (hcs : cs ≠ []) (ds : Bytes) : readFrom index (fuel + 1) (cs ++ ds) =
      match readUpTo maxDepth (cs ++ ds) with
      | .error f => .error ⟨index, f⟩
      | .ok (i, rest) => return i :: (← readFrom (index + 1) fuel rest) := by
  cases cs with
  | nil => contradiction
  | cons c cs => rfl

theorem readFrom_writeAll (hp : Instruction.areProper is) (hd : Instruction.depthAll is ≤ maxDepth)
    (hf : is.length ≤ fuel) (h : writeAll is = .ok bs) : readFrom index fuel bs = .ok is := by
  induction is generalizing index fuel bs with
  | nil =>
    cases h
    cases fuel <;> rfl
  | cons i is ih =>
    obtain ⟨cs, hc, hb⟩ := bind_eq_ok.mp h
    obtain ⟨ds, hw, hb⟩ := bind_eq_ok.mp hb
    cases hb
    rw [Instruction.areProper, Bool.and_eq_true] at hp
    rw [Instruction.depthAll, max_le_iff] at hd
    obtain ⟨fuel, rfl⟩ : ∃ k, fuel = k + 1 := ⟨fuel - 1, by simp at hf; omega⟩
    have hr := reads_write hp.1 hd.1 hc ds
    rw [readFrom_append (write_ne_nil hp.1 hc), hr]
    simp only [ih hp.2 hd.2 (by simpa using hf) hw]
    rfl

theorem readFrom_too_deep (hp : Instruction.areProper is) (hd : maxDepth < Instruction.depthAll is)
    (hf : is.length ≤ fuel) (h : writeAll is = .ok bs) : ∃ f, readFrom index fuel bs = .error f := by
  induction is generalizing index fuel bs with
  | nil => simp [Instruction.depthAll] at hd
  | cons i is ih =>
    obtain ⟨cs, hc, hb⟩ := bind_eq_ok.mp h
    obtain ⟨ds, hw, hb⟩ := bind_eq_ok.mp hb
    cases hb
    rw [Instruction.areProper, Bool.and_eq_true] at hp
    obtain ⟨fuel, rfl⟩ : ∃ k, fuel = k + 1 := ⟨fuel - 1, by simp at hf; omega⟩
    rw [readFrom_append (write_ne_nil hp.1 hc)]
    by_cases hi : maxDepth < i.depth
    · obtain ⟨within, hr⟩ := refuses_write hp.1 hi hc ds
      rw [hr]
      exact ⟨_, rfl⟩
    · have hr := reads_write hp.1 (Nat.le_of_not_lt hi) hc ds
      have hd : maxDepth < Instruction.depthAll is := by
        rw [Instruction.depthAll] at hd
        omega
      obtain ⟨f, hrest⟩ : ∃ f, readFrom (index + 1) fuel ds = .error f := ih hp.2 hd (by simpa using hf) hw
      simp_all

end Wire

/-! ### Equality -/

namespace Instruction

theorem beq_self_of_ne_nan {w : Binary.Width} {bits : Nat} (h : Binary.decode w bits ≠ .nan) :
    Binary.beq w bits bits := by grind [Binary.beq]

mutual

theorem same_self {i : Instruction} (h : i.isProper) : same i i := by
  cases i with
  | loadLazy arity body =>
    rw [isProper] at h
    simp [same, sameAll_self h]
  | constF32 bits | constF64 bits => grind [isProper, same, beq_self_of_ne_nan]
  | _ => simp [same]

theorem sameAll_self {is : List Instruction} (h : areProper is) : sameAll is is := by
  cases is with
  | nil => rfl
  | cons i is =>
    rw [areProper, Bool.and_eq_true] at h
    rw [sameAll, same_self h.1, sameAll_self h.2]
    rfl

end

end Instruction

namespace Wire

/-- What could be written is read back as it was, unless it lies deeper than readers go, and then it is
not read at all. -/
theorem readAll_writeAll {is : List Instruction} {bs : Bytes}
    (hp : Instruction.areProper is = true) (h : writeAll is = .ok bs) :
    (∃ js, readAll bs = .ok js ∧ Instruction.sameAll js is = true) ↔
      Instruction.depthAll is ≤ maxDepth := by
  have hf := length_le_of_writeAll hp h
  constructor
  · rintro ⟨js, hr, -⟩
    by_contra hd
    obtain ⟨f, he⟩ := readFrom_too_deep hp (Nat.lt_of_not_le hd) hf h
    rw [readAll, he] at hr
    cases hr
  · intro hd
    exact ⟨is, readFrom_writeAll hp hd hf h, Instruction.sameAll_self hp⟩

def lazySample : List Instruction :=
  [.loadLazy 1 [.loadLocal 0, .constInt .i16 (-300), .returnLazy 1], .callNative .equal]

def lazySampleBytes : Bytes :=
  [0xaf, 0, 1, 0, 0, 0, 3, 0xa9, 0, 0, 0xd0, 0xfe, 0xd4, 0xb0, 0, 1, 0xae, 2]

theorem readAll_writeAll_lazySample :
    Instruction.areProper lazySample = true ∧ writeAll lazySample = .ok lazySampleBytes ∧
      ∃ js, readAll lazySampleBytes = .ok js ∧ Instruction.sameAll js lazySample = true :=
  ⟨by decide, rfl, (readAll_writeAll (by decide) rfl).mpr (by decide)⟩

end Wire

end Parlance
