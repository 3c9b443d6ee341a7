import Parlance.Diagnostic.Repair
import Parlance.Proofs.NumberTexts
/-!
What becomes of the fixes that are offered. A fix is left out only if it repeats one, does not fit its sources
or gets in the way of one before it.
-/
namespace Parlance.Repair

open List Spelling

variable {sources : List Source} {write : Bool} {accepted more es fs : List Edit} {e o : Edit} {s : Source}
  {size i : Nat} {c : Bytes}

/-! ### Edits that fit -/

def clash (a b : Edit) : Bool := a.span.uri == b.span.uri && overlaps a b

theorem overlaps_comm (a b : Edit) : overlaps a b = overlaps b a := by
  unfold overlaps
  grind

/-- The edit replaces a part of a source that is known, and of a file if it is to be written. -/
def stands (sources : List Source) (write : Bool) (e : Edit) : Bool :=
  (sources.find? (·.uri == e.span.uri)).any fun s => (!write || e.span.uri.isFile) &&
    decide (0 ≤ e.span.start.offset ∧ e.span.start.offset ≤ e.span.stop.offset ∧ e.span.stop.offset ≤ s.size)

/-- All edits of a fix stand, and none is in the way of another or of those accepted. -/
def Fits (sources : List Source) (write : Bool) (accepted es : List Edit) : Prop :=
  (∀ e ∈ es, stands sources write e) ∧ (∀ e ∈ es, ∀ o ∈ accepted, clash o e = false) ∧
    es.Pairwise fun o e => clash o e = false

instance : Decidable (Fits sources write accepted es) := inferInstanceAs (Decidable (_ ∧ _ ∧ _))

theorem objection?_eq_none : objection? sources write accepted e = none ↔
    stands sources write e ∧ ∀ o ∈ accepted, clash o e = false := by
  grind [clash, overlaps_comm, objection?, stands]

theorem accept_eq_ok :
    accept sources write accepted es = .ok more ↔ Fits sources write accepted es ∧ more = accepted ++ es := by
  induction es generalizing accepted with
  | nil => simp [accept, Fits, eq_comm (a := accepted)]
  | cons e es ih =>
    rw [accept]
    split
    · rename_i r hr
      have hnot : ¬ (stands sources write e ∧ ∀ o ∈ accepted, clash o e = false) := by
        rw [← objection?_eq_none, hr]
        nofun
      simp only [reduceCtorEq, false_iff]
      exact fun h => hnot ⟨h.1.1 e mem_cons_self, h.1.2.1 e mem_cons_self⟩
    · rename_i hr
      obtain ⟨hstands, hclash⟩ := objection?_eq_none.mp hr
      grind [Fits]

/-- What comes of accepting the edits of fixes, one fix after another. -/
inductive Accepted (sources : List Source) (write : Bool) : List Edit → Prop where
  | none : Accepted sources write []
  | fix {accepted es more : List Edit} (h : Accepted sources write accepted)
    (hok : accept sources write accepted es = .ok more) : Accepted sources write more

theorem Accepted.fits (h : Accepted sources write es) : Fits sources write [] es := by
  induction h with
  | none => simp [Fits]
  | fix _ hok ih =>
    obtain ⟨⟨hstand, hclash, hpair⟩, rfl⟩ := accept_eq_ok.mp hok
    exact ⟨forall_mem_append.mpr ⟨ih.1, hstand⟩, fun _ _ => nofun,
      pairwise_append.mpr ⟨ih.2.2, hpair, fun o ho e he => hclash e he o ho⟩⟩

/-! ### Texts with their edits made -/

abbrev lo (e : Edit) : Int := e.span.start.offset

abbrev hi (e : Edit) : Int := e.span.stop.offset

/-- The edits are of a text of this size, and none gets in the way of another. -/
structure Apart (size : Nat) (es : List Edit) : Prop where
  inside : ∀ e ∈ es, 0 ≤ lo e ∧ lo e ≤ hi e ∧ hi e ≤ size
  pairwise : es.Pairwise fun a b => overlaps a b = false

theorem Apart.perm (h : Apart size es) (hperm : es.Perm fs) : Apart size fs :=
  ⟨fun e he => h.inside e (hperm.mem_iff.mpr he), h.pairwise.perm hperm fun {a b} hab => overlaps_comm a b ▸ hab⟩

theorem Accepted.apart (h : Accepted sources write es) (hs : sources.find? (·.uri == s.uri) = some s) :
    Apart s.size (es.filter (·.span.uri == s.uri)) := by
  obtain ⟨hstand, -, hpair⟩ := h.fits
  refine ⟨fun e he => ?_, List.Pairwise.imp_of_mem (fun {a b} ha hb hab => ?_) (hpair.filter _)⟩
  · grind [stands]
  · grind [clash]

def startsAt (i : Nat) (e : Edit) : Bool := lo e == i

/-- What is put in at a place: the texts of the edits that start there, in their order. -/
def textAt (es : List Edit) (i : Nat) : Bytes := (es.filter (startsAt i)).flatMap fun e => Bytes.ofString e.text

def isReplaced (es : List Edit) (i : Nat) : Bool := es.any fun e => lo e ≤ i && i < hi e

/-- A text from a place on with every edit made where it stands: each byte is kept unless it is replaced. -/
def woven (es : List Edit) : Nat → Bytes → Bytes
  | i, [] => textAt es i
  | i, b :: bs => textAt es i ++ (if isReplaced es i then [] else [b]) ++ woven es (i + 1) bs

theorem textAt_cons (e : Edit) (es : List Edit) (i : Nat) :
    textAt (e :: es) i = (if lo e = i then Bytes.ofString e.text else []) ++ textAt es i := by
  by_cases h : lo e = i <;> simp [textAt, startsAt, h]

theorem isReplaced_cons (e : Edit) (es : List Edit) (i : Nat) :
    isReplaced (e :: es) i = (decide (lo e ≤ i ∧ i < hi e) || isReplaced es i) := by
  simp [isReplaced]

theorem untouched (h : ∀ e ∈ es, i < lo e) : textAt es i = [] ∧ isReplaced es i = false := by
  induction es with
  | nil => exact ⟨rfl, rfl⟩
  | cons e es ih => grind [textAt_cons, isReplaced_cons]

theorem woven_congr (h : ∀ j, i ≤ j → textAt es j = textAt fs j ∧ isReplaced es j = isReplaced fs j) :
    woven es i c = woven fs i c := by
  induction c generalizing i with
  | nil => exact (h i (Nat.le_refl i)).1
  | cons b bs ih =>
    obtain ⟨ht, hr⟩ := h i (Nat.le_refl i)
    rw [woven, woven, ht, hr, ih fun j hj => h j (by omega)]

/-- A stretch in which nothing is put in is kept or replaced as a whole. -/
theorem woven_stretch {replaced : Bool} {n : Nat} (hn : n ≤ c.length)
    (h : ∀ j, i ≤ j → j < i + n → textAt es j = [] ∧ isReplaced es j = replaced) :
    woven es i c = (if replaced then [] else c.take n) ++ woven es (i + n) (c.drop n) := by
  induction n generalizing i c with
  | zero => simp
  | succ n ih =>
    cases c with
    | nil => simp at hn
    | cons b bs =>
      obtain ⟨ht, hr⟩ := h i (Nat.le_refl i) (by omega)
      rw [woven, ht, hr, ih (Nat.le_of_succ_le_succ hn) fun j hj hlt => h j (by omega) (by omega)]
      cases replaced <;> simp [Nat.add_assoc, Nat.add_comm 1]

theorem woven_nil (i : Nat) (c : Bytes) : woven [] i c = c := by
  induction c generalizing i with
  | nil => rfl
  | cons b bs ih => simp [woven, textAt, isReplaced, ih]

/-- The places at which a text is cut come one after another and none lies outside of it. -/
def InBounds (size : Nat) : Int → List Edit → Prop
  | i, [] => i ≤ size
  | i, e :: es => i ≤ lo e ∧ lo e ≤ hi e ∧ InBounds size (hi e) es

theorem hi_le_lo (h : overlaps e o = false) (ho : lo o ≤ hi o) (hle : lo e ≤ lo o) : hi e ≤ lo o := by
  unfold overlaps isInsertion at h
  grind

theorem woven_cons {j : Nat} (hlo : lo e = i) (hhi : hi e = j) (hij : i ≤ j) (hc : j - i ≤ c.length)
    (hlater : ∀ o ∈ es, j ≤ lo o) : woven (e :: es) i c = Bytes.ofString e.text ++ woven es j (c.drop (j - i)) := by
  have hafter (k : Nat) (hjk : j ≤ k) (hik : i < k) :
      textAt (e :: es) k = textAt es k ∧ isReplaced (e :: es) k = isReplaced es k := by
    grind [textAt_cons, isReplaced_cons]
  have hnone (k : Nat) (hk : k < j) : textAt es k = [] := (untouched fun o ho => by have := hlater o ho; omega).1
  cases c with
  | nil => grind [woven, textAt_cons]
  | cons b bs =>
    obtain rfl | hlt := Nat.eq_or_lt_of_le hij
    · rw [Nat.sub_self, drop_zero, woven, woven, woven_congr fun k hk => hafter k (by omega) hk]
      simp [textAt_cons, isReplaced_cons, hlo, hhi]
    · obtain ⟨n, rfl⟩ := Nat.exists_eq_add_of_lt hlt
      have hstretch (k : Nat) (hik : i + 1 ≤ k) (hkj : k < i + 1 + n) :
          textAt (e :: es) k = [] ∧ isReplaced (e :: es) k := by
        grind [textAt_cons, isReplaced_cons]
      rw [woven, woven_stretch (by simp at hc; omega) hstretch, Nat.add_right_comm,
        woven_congr fun k hk => hafter k hk (by omega)]
      have hcovers : isReplaced (e :: es) i := by grind [isReplaced_cons]
      have hdrop : i + n + 1 - i = n + 1 := by omega
      simp [textAt_cons, hlo, hcovers, hnone i hlt, hdrop]

theorem splice_sorted (h : Apart size es) (hsorted : es.Pairwise fun a b => lo a ≤ lo b)
    (hfrom : ∀ e ∈ es, i ≤ lo e) (hc : c.length + i = size) : InBounds size i es ∧ splice i c es = woven es i c := by
  induction es generalizing i c with
  | nil => exact ⟨by simp [InBounds]; omega, (woven_nil i c).symm⟩
  | cons e es ih =>
    obtain ⟨hin, hins⟩ := forall_mem_cons.mp h.inside
    obtain ⟨hpair, hpairs⟩ := pairwise_cons.mp h.pairwise
    obtain ⟨hle, hsorted⟩ := pairwise_cons.mp hsorted
    have hfrom := hfrom e mem_cons_self
    obtain ⟨m, hm⟩ := Int.eq_ofNat_of_zero_le hin.1
    obtain ⟨n, hn⟩ := Int.eq_ofNat_of_zero_le (Int.le_trans hin.1 hin.2.1)
    have hlater : ∀ o ∈ es, n ≤ lo o := fun o ho => hn ▸ hi_le_lo (hpair o ho) (hins o ho).2.1 (hle o ho)
    have hbefore (k : Nat) (_ : i ≤ k) (hk : k < i + (m - i)) :
        textAt (e :: es) k = [] ∧ isReplaced (e :: es) k = false :=
      untouched (forall_mem_cons.mpr ⟨by omega, fun o ho => by have := hle o ho; omega⟩)
    obtain ⟨hb, heq⟩ := ih (c := c.drop (n - i)) ⟨hins, hpairs⟩ hsorted hlater (by rw [length_drop]; omega)
    refine ⟨⟨hfrom, hin.2.1, hn ▸ hb⟩, ?_⟩
    have hcut : (lo e - i).toNat = m - i ∧ (hi e - i).toNat = m - i + (n - m) := by omega
    have hplace : n - i = m - i + (n - m) ∧ i + (m - i) = m := by omega
    rw [splice, hcut.1, hcut.2, ← hplace.1, show e.span.stop.offset = n from hn, heq,
      woven_stretch (by omega) hbefore, hplace.2,
      woven_cons hm hn (by omega) (by rw [length_drop]; omega) hlater, drop_drop, hplace.1]
    simp

theorem startsBefore_trans (a b c : Edit) (hab : startsBefore a b) (hbc : startsBefore b c) : startsBefore a c := by
  grind [startsBefore]

theorem startsBefore_total (a b : Edit) : (startsBefore a b || startsBefore b a) := by
  grind [startsBefore]

theorem filter_mergeSort (es : List Edit) (i : Nat) :
    (es.mergeSort startsBefore).filter (startsAt i) = es.filter (startsAt i) := by
  have hall : (es.filter (startsAt i)).Pairwise fun a b => startsBefore a b :=
    pairwise_of_forall_mem_list fun a ha b hb => by
      have ha := eq_of_beq (mem_filter.mp ha).2
      have hb := eq_of_beq (mem_filter.mp hb).2
      simp [startsBefore, ha, hb]
  have hsub := (sublist_mergeSort startsBefore_trans startsBefore_total hall
    filter_sublist).filter (startsAt i)
  simp only [filter_filter, Bool.and_self] at hsub
  exact (hsub.eq_of_length ((mergeSort_perm es _).filter _).length_eq.symm).symm

theorem change_eq (h : Apart s.size es) : InBounds s.size 0 (es.mergeSort startsBefore) ∧
    change s es = ⟨{ s with code := woven es 0 s.code }, es.length⟩ := by
  have hperm := mergeSort_perm es startsBefore
  have hsorted := (pairwise_mergeSort startsBefore_trans startsBefore_total es).imp of_decide_eq_true
  have hapart := h.perm hperm.symm
  obtain ⟨hb, heq⟩ := splice_sorted (i := 0) (c := s.code) hapart hsorted (fun e he => (hapart.inside e he).1) rfl
  refine ⟨hb, ?_⟩
  rw [change]
  refine congrArg (fun c => Change.mk { s with code := c } es.length) (heq.trans (woven_congr fun i _ => ⟨?_, ?_⟩))
  · rw [textAt, filter_mergeSort, textAt]
  · exact hperm.any_eq

/-- Where an edit replaces something no other starts; so what is put in at a place depends on the order of the
insertions there alone. -/
theorem textAt_eq_of_perm (h : Apart size es) (hperm : es.Perm fs)
    (hins : es.filter (fun e => isInsertion e && startsAt i e) = fs.filter fun e => isInsertion e && startsAt i e) :
    textAt es i = textAt fs i := by
  have hstart := hperm.filter (startsAt i)
  rw [textAt, textAt]
  by_cases hall : ∀ e ∈ es.filter (startsAt i), isInsertion e
  · rw [← filter_filter, ← filter_filter, filter_eq_self.mpr hall,
      filter_eq_self.mpr fun e he => hall e (hstart.mem_iff.mpr he)] at hins
    rw [hins]
  · push Not at hall
    obtain ⟨e, he, hnot⟩ := hall
    have hover (o : Edit) (ho : o ∈ es.filter (startsAt i)) : overlaps e o ≠ false := by
      obtain ⟨he, hei⟩ := mem_filter.mp he
      obtain ⟨ho, hoi⟩ := mem_filter.mp ho
      have heq : lo e = lo o := (eq_of_beq hei).trans (eq_of_beq hoi).symm
      intro hclear
      have hle := hi_le_lo hclear (h.inside o ho).2.1 (Int.le_of_eq heq)
      exact hnot (beq_iff_eq.mpr (Int.le_antisymm (h.inside e he).2.1 (Int.le_trans hle (Int.le_of_eq heq.symm))))
    obtain ⟨before, after, hsplit⟩ := append_of_mem he
    have hpair := h.pairwise.filter (startsAt i)
    rw [hsplit, pairwise_append, pairwise_cons] at hpair
    simp only [hsplit, mem_append, mem_cons] at hover
    obtain rfl : before = [] := eq_nil_iff_forall_not_mem.mpr fun o ho =>
      hover o (.inl ho) (overlaps_comm e o ▸ hpair.2.2 o ho e mem_cons_self)
    obtain rfl : after = [] := eq_nil_iff_forall_not_mem.mpr fun o ho =>
      hover o (.inr (.inr ho)) (hpair.2.1.1 o ho)
    simp_all

/-- The edits accepted for a source are apart, its text is never cut out of bounds, and it becomes the text with each
edit made where it stands. Another order of acceptance makes no difference if insertions at one place keep theirs. -/
theorem change_accepted (h : Accepted sources write es) (hs : sources.find? (·.uri == s.uri) = some s)
    {own : List Edit} (hown : own = es.filter (·.span.uri == s.uri)) :
    own.Pairwise (fun a b => overlaps a b = false) ∧ InBounds s.size 0 (own.mergeSort startsBefore) ∧
    change s own = ⟨{ s with code := woven own 0 s.code }, own.length⟩ ∧
    ∀ fs, own.Perm fs → (∀ i, own.filter (fun e => isInsertion e && startsAt i e) =
      fs.filter fun e => isInsertion e && startsAt i e) → change s fs = change s own := by
  subst hown
  have hapart := h.apart hs
  obtain ⟨hb, heq⟩ := change_eq hapart
  refine ⟨hapart.pairwise, hb, heq, fun fs hperm hins => ?_⟩
  rw [(change_eq (hapart.perm hperm)).2, heq, hperm.length_eq,
    woven_congr fun i _ => ⟨(textAt_eq_of_perm hapart hperm (hins i)).symm, hperm.symm.any_eq⟩]

def onLine (uri : Uri) (i j : Nat) (text : String) : Edit := ⟨⟨uri, ⟨i, 1, i + 1⟩, ⟨j, 1, j + 1⟩⟩, text⟩

theorem change_accepted_insertions : let s : Source := .ofString .module "a" "xyz"
    let es := [onLine "a" 1 2 "t", onLine "a" 2 2 "u", onLine "a" 2 2 "v"]
    Accepted [s] false es ∧ (change s es).source.code = woven es 0 s.code ∧
      woven es 0 s.code = Bytes.ofString "xtuvz" := by
  intro s es
  have hfirst : accept [s] false [] (es.take 1) = .ok (es.take 1) := accept_eq_ok.mpr ⟨by decide, rfl⟩
  have hrest : accept [s] false (es.take 1) (es.drop 1) = .ok es := accept_eq_ok.mpr ⟨by decide, rfl⟩
  have h : Accepted [s] false es := (Accepted.none.fix hfirst).fix hrest
  have hown : es = es.filter (·.span.uri == s.uri) := by decide
  exact ⟨h, congrArg (·.source.code) (change_accepted h rfl hown).2.2.1, by decide⟩

/-! ### Fixes chosen -/

/-- The candidates that are applied: each one that fits with what was accepted before it. -/
def taken (sources : List Source) (write : Bool) (accepted : List Edit) : List Candidate → List Candidate
  | [] => []
  | c :: cs =>
    if Fits sources write accepted c.edits then c :: taken sources write (accepted ++ c.edits) cs
    else taken sources write accepted cs

def useful (ds : List Diagnostic) : List Candidate := (offered ds).filter (!·.edits.isEmpty)

def sameName (c d : Candidate) : Bool := d.id == c.id

def sameFix (c d : Candidate) : Bool := d.span.uri == c.span.uri && d.id == c.id

theorem sift_foldl (cs : List Candidate) (p : List Candidate × List Skipped) :
    (cs.foldl sift p).1 = List.eraseDupsBy.loop sameName (cs.filter (!·.edits.isEmpty)) p.1.reverse := by
  induction cs generalizing p with
  | nil => simp [List.eraseDupsBy.loop]
  | cons c cs ih =>
    rw [foldl_cons, ih]
    by_cases hc : c.edits.isEmpty
    · rw [filter_cons_of_neg (by simp [hc]), sift, if_pos hc]
    · rw [filter_cons_of_pos (by simp [hc]), sift, if_neg hc, List.eraseDupsBy.loop, any_reverse]
      grind [sameName]

theorem candidates_eq (ds : List Diagnostic) :
    (candidates ds).1 = ((useful ds).eraseDupsBy sameName).mergeSort inOrder :=
  congrArg (·.mergeSort inOrder) (sift_foldl (offered ds) ([], []))

theorem next_foldl (cs : List Candidate) (p : Progress) : (cs.foldl (Progress.next sources write) p).applied =
      p.applied ++ (taken sources write p.accepted cs).map Candidate.report ∧
    (cs.foldl (Progress.next sources write) p).accepted =
      p.accepted ++ (taken sources write p.accepted cs).flatMap (·.edits) := by
  induction cs generalizing p with
  | nil => simp [taken]
  | cons c cs ih =>
    rw [foldl_cons, (ih _).1, (ih _).2, taken, Progress.next]
    split
    · rename_i more h
      obtain ⟨hfits, rfl⟩ := accept_eq_ok.mp h
      simp [hfits]
    · rename_i r h
      have hnot : ¬ Fits sources write p.accepted c.edits := fun hfits => by
        rw [accept_eq_ok.mpr ⟨hfits, rfl⟩] at h
        cases h
      simp [if_neg hnot]

theorem eraseDupsBy_congr {r r' : Candidate → Candidate → Bool} {l : List Candidate}
    (h : ∀ c ∈ l, ∀ d ∈ l, r c d = r' c d) : l.eraseDupsBy r = l.eraseDupsBy r' := by
  have hloop (as bs : List Candidate) (has : as ⊆ l) (hbs : bs ⊆ l) :
      List.eraseDupsBy.loop r as bs = List.eraseDupsBy.loop r' as bs := by
    induction as generalizing bs with
    | nil => rfl
    | cons a as ih => grind [List.eraseDupsBy.loop]
  exact hloop l [] (List.Subset.refl l) (nil_subset l)

theorem append_cons_inj {c : Char} {s s' t t' : List Char} (hs : c ∉ s) (hs' : c ∉ s')
    (h : s ++ c :: t = s' ++ c :: t') : s = s' ∧ t = t' := by
  have hcut := congrArg (cutAt c) h
  grind [cutAt_append]

/-- A name tells the kind of the remark, the place where it starts and the number of the fix. -/
theorem fixId_inj {d e : Diagnostic} {j : Nat} : fixId d i = fixId e j ↔
    d.code = e.code ∧ d.span.start.line = e.span.start.line ∧
      d.span.start.character = e.span.start.character ∧ i = j := by
  have hdigits {c : Char} (n : Nat) (hc : ¬ IsDigit c) : c ∉ (toString n).toList := fun h => hc (isDigit_natural h)
  have hnumber {m n : Nat} (h : (toString m).toList = (toString n).toList) : m = n := by
    rw [← worth_natural m, h, worth_natural]
  have htext (d : Diagnostic) (i : Nat) : (fixId d i).toList =
      ('L' :: (List.replicate (3 - (toString d.code.number).length) '0' ++ (toString d.code.number).toList)) ++ '-' ::
        ((toString d.span.start.line).toList ++ ':' ::
          ((toString d.span.start.character).toList ++ '-' :: (toString i).toList)) := by
    change (("L" ++ Text.copies '0' _ ++ toString d.code.number) ++ "-" ++
      (toString d.span.start.line ++ ":" ++ toString d.span.start.character) ++ "-" ++ toString i).toList = _
    simp [Text.copies]
  constructor
  · intro h
    have h := congrArg String.toList h
    rw [htext, htext] at h
    have hcode (d : Diagnostic) : '-' ∉ 'L' :: (List.replicate (3 - (toString d.code.number).length) '0' ++
        (toString d.code.number).toList) := by
      simpa using hdigits d.code.number (by decide)
    obtain ⟨hcode, h⟩ := append_cons_inj (hcode d) (hcode e) h
    obtain ⟨hline, h⟩ := append_cons_inj (hdigits _ (by decide)) (hdigits _ (by decide)) h
    have h := congrArg List.reverse h
    simp only [reverse_append, reverse_cons, append_assoc, singleton_append] at h
    obtain ⟨hindex, hcharacter⟩ := append_cons_inj (by simpa using hdigits i (by decide))
      (by simpa using hdigits j (by decide)) h
    have hcode := congrArg (worth 0) (List.cons.inj hcode).2
    simp only [worth_append, worth_zeros, Nat.zero_mul, worth_natural] at hcode
    have hcharacter := congrArg Reading.integer? (String.toList_inj.mp (reverse_inj.mp hcharacter))
    rw [Reading.integer?_toString, Reading.integer?_toString] at hcharacter
    exact ⟨congrArg Code.mk hcode, hnumber hline, Option.some.inj hcharacter, hnumber (reverse_inj.mp hindex)⟩
  · grind [fixId, Location.render]

/-- With all fixes wanted, those are applied that have edits, bear no name of one before, and fit with what was
accepted by the time, in the order of their places; and all of their edits are made. Names leave out the source; if
no two sources have fixes of one name, only repeated fixes are left out for their names. -/
theorem applied_all (sources : List Source) (ds : List Diagnostic) {chosen : List Candidate}
    (hchosen : chosen = taken sources false [] (((useful ds).eraseDupsBy sameName).mergeSort inOrder)) :
    (apply sources ds .all false).applied = chosen.map Candidate.report ∧
    (∀ s ∈ sources, ∀ own, own = (chosen.flatMap (·.edits)).filter (·.span.uri == s.uri) → own ≠ [] →
      change s own ∈ (apply sources ds .all false).changes) ∧
    (∀ d e i j, fixId d i = fixId e j ↔ d.code = e.code ∧ d.span.start.line = e.span.start.line ∧
      d.span.start.character = e.span.start.character ∧ i = j) ∧
    ((∀ c ∈ useful ds, ∀ d ∈ useful ds, c.id = d.id → c.span.uri = d.span.uri) →
      (useful ds).eraseDupsBy sameName = (useful ds).eraseDupsBy sameFix) := by
  subst hchosen
  rw [← candidates_eq]
  obtain ⟨happlied, haccepted⟩ := @next_foldl sources false (candidates ds).1 ⟨[], [], (candidates ds).2 ++ []⟩
  refine ⟨happlied, fun s hs own hown hne => ?_, fun _ _ _ _ => fixId_inj,
    fun h => eraseDupsBy_congr fun c hc d hd => ?_⟩
  · obtain ⟨e, he⟩ := exists_mem_of_ne_nil own hne
    rw [hown, mem_filter] at he
    refine mem_map.mpr ⟨s, mem_mergeSort.mpr (mem_filter.mpr ⟨hs, any_eq_true.mpr ⟨e, ?_, he.2⟩⟩), ?_⟩
    · exact haccepted ▸ he.1
    · exact hown ▸ congrArg (fun es : List Edit => change s (es.filter (·.span.uri == s.uri))) haccepted
  · have := h c hc d hd
    simp only [sameName, sameFix]
    grind

/-- Two sources with one fix each, in the same place and so of one name: the second one is not applied. -/
theorem applied_all_two_sources :
    let offer (uri : Uri) := (Diagnostic.of .tooPreciseFloat (onLine uri 0 1 "").span "").withFix ""
      [onLine uri 0 1 "u"]
    (apply [.ofString .module "a" "x", .ofString .module "b" "x"] [offer "a", offer "b"] .all false).applied =
      [⟨fixId (offer "a") 0, "", "a", 1⟩] ∧
    (useful [offer "a"]).eraseDupsBy sameName = (useful [offer "a"]).eraseDupsBy sameFix := by
  intro offer
  refine ⟨(applied_all _ _ rfl).1.trans ?_, (applied_all [] _ rfl).2.2.2 (by decide)⟩
  have hname : fixId (offer "a") 0 = fixId (offer "b") 0 := rfl
  have hleft : (useful [offer "a", offer "b"]).eraseDupsBy sameName =
      [⟨fixId (offer "a") 0, "", (offer "a").span, [onLine "a" 0 1 "u"]⟩] := by
    change List.eraseDupsBy sameName [⟨fixId (offer "a") 0, _, _, _⟩, ⟨fixId (offer "b") 0, _, _, _⟩] = _
    simp [List.eraseDupsBy, List.eraseDupsBy.loop, sameName, hname, offer]
  rw [hleft, mergeSort_singleton, taken, if_pos (by decide)]
  rfl

end Parlance.Repair
