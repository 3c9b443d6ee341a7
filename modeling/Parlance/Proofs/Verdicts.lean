import Parlance.Proofs.Subtyping
/-!
Whatever has been asked before, there is no refusal exactly if the type does. So among closed types it is a
preorder where classes pass their type parameters on as they may.
-/
namespace Parlance

open List Relation

namespace Ty

theorem sameAll_iff {as bs : List Ty} : sameAll as bs ↔
    as.length = bs.length ∧ ∀ k, k < as.length → (argument as k).same (argument bs k) := by
  induction as generalizing bs with
  | nil => cases bs <;> simp [sameAll]
  | cons a as ih =>
    cases bs with
    | nil => simp [sameAll]
    | cons b bs =>
      rw [sameAll, Bool.and_eq_true, ih, length_cons, length_cons, Nat.add_right_cancel_iff, and_left_comm,
        Nat.forall_lt_succ_left]
      rfl

end Ty

namespace Program

variable {p : Program} {n : Nat} {i : Bool} {t u a b : Ty} {base : Memo} {c : Node} {args : List Ty}
  {as bs : List Ty} {name name' : String} {α : Type} {m : Memo}

/-! ### Types above -/

theorem Suits.proper {free : Bool → Bool → Bool} {forth fixed : Bool}
    (h : ∀ (k : Nat) (q : Node), (p.typeParameters c)[k]? = some q → (Ty.argument args k).Proper p)
    (hs : p.Suits c free forth fixed t) : (t.subst (p.substitution (some c) args)).Proper p := by
  induction hs with
  | parameter hq _ =>
    obtain ⟨k, hk, hlookup⟩ := lookup_substitution hq
    simp only [Ty.subst, hlookup]
    exact h k _ hk
  | @object _ _ _ d ts hd hclass hlen _ ih =>
    rw [Ty.subst, Ty.substAll_eq_map]
    refine .object hd hclass (by rw [length_map, hlen]) (forall_mem_map.mpr fun t ht => ?_)
    grind [getElem?_of_mem]
  | self _ hid _ ih => exact .self ih (by rw [classId?_subst hid]; exact hid)

theorem Proper.argument (hc : p.Has c)
    (h : (Ty.object name c.id args).Proper p) {k : Nat} {q : Node} (hq : (p.typeParameters c)[k]? = some q) :
    (Ty.argument args k).Proper p := by
  generalize ht : Ty.object name c.id args = t at h
  cases h with
  | object hc' _ hlen ha =>
    injection ht with _ hid hargs
    obtain rfl := hc.eq_of_id hc' hid
    grind [Ty.argument_mem]
  | self => cases ht

theorem Upright.proper_supers (hp : p.Upright) (hc : p.Has c)
    (h : (Ty.object name c.id args).Proper p) {s : Ty} (hs : s ∈ p.supers c args) : s.Proper p := by
  obtain ⟨t, ht, rfl⟩ := (hp.mem_supers hc).mp hs
  exact (hp.grown.superExpression hc (hp.passes c hc) ht).2.2.2.proper fun k q hq => Proper.argument hc h hq

theorem Upright.keeps_supers (hp : p.Upright) (hc : p.Has c) (args : List Ty) :
    Keeps (p.Since base) (p.superTypes c.id args) (· = p.supers c args) := by
  unfold superTypes
  simp only [hc.at_]
  refine (Keeps.filterMapM (S := fun t o => o = some ((p.written t).subst (p.substitution (some c) args)))
    fun t ht => ?_).mono ?_
  · obtain ⟨hthas, httype⟩ := hc.superExpression ht
    obtain ⟨hsimple, ⟨k, hk⟩, hid, -⟩ := hp.grown.superExpression hc (hp.passes c hc) ht
    refine .bind (keeps_typeExpressionType hp.grown hthas httype) fun v hv => ?_
    obtain rfl := hv.2 (.type hsimple)
    rw [hk] at hid
    cases hw : p.written t <;> rw [hw] at hid <;> cases hid
    exact .pure rfl
  · rintro ss ⟨os, hos, rfl⟩
    have hmap := eq_map_of_forall₂ hos
    rw [hmap, supers, filterMap_map]
    rw [filter_eq_self.mpr]
    · simp
    · intro s hs
      obtain ⟨t, ht, rfl⟩ := mem_map.mp hs
      exact (Program.mem_supers.mp ((hp.mem_supers hc).mpr ⟨t, ht, rfl⟩)).choose_spec.2.2

/-! ### Answers -/

/-- What an answer says about two types: they do, they do not, or there is none. -/
def Verdict (p : Program) (n : Nat) (i : Bool) (t u : Ty) : Option (Option Refusal) → Prop
  | none => True
  | some none => p.Does n i t u
  | some (some _) => ∀ k, ¬ p.Does k i t u

theorem Verdict.cases {o : Option (Option Refusal)} (h : p.Verdict n i t u o) :
    (o = some none → p.Does n i t u) ∧ ∀ r, o = some (some r) → ∀ k, ¬ p.Does k i t u := by
  refine ⟨fun heq => ?_, fun r heq => ?_⟩
  · rwa [heq] at h
  · rwa [heq] at h

theorem keeps_attempts {β : Type} {I : Memo → Prop} {f : α → Attempt (Option β)} {as : List α} {A B : α → Prop}
    (h : ∀ a ∈ as, Keeps I (f a).run fun o => (o = some none → A a) ∧ ∀ r, o = some (some r) → B a) :
    Keeps I (as.filterMapM f).run fun o => ∀ rs, o = some rs → (rs = [] ∧ ∀ a ∈ as, A a) ∨
      rs ≠ [] ∧ ∃ a ∈ as, B a := by
  induction as with
  | nil =>
    rw [filterMapM_nil]
    refine .pure fun rs hrs => .inl ⟨?_, nofun⟩
    cases hrs
    rfl
  | cons a as ih =>
    rw [filterMapM_cons]
    have hrest := ih fun c hc => h c (mem_cons_of_mem a hc)
    refine keeps_attempt (h a mem_cons_self) (fun _ => nofun) fun o ho => ?_
    cases o with
    | none =>
      refine hrest.mono fun o hos rs hrs => ?_
      grind
    | some r =>
      refine keeps_attempt hrest (fun _ => nofun) fun rs _ => .pure fun rs' hrs' => .inr ?_
      grind

theorem keeps_firstVerdict {I : Memo → Prop} {check : Ty → Attempt (Option Refusal)} {ts : List Ty}
    (h : ∀ s ∈ ts, Keeps I (check s).run (p.Verdict n false t s)) :
    Keeps I (firstAccepted check ts).run fun o => (o = some none → ∃ s ∈ ts, p.Does n false t s) ∧
      ∀ rs, o = some (some rs) → ∀ s ∈ ts, ∀ k, ¬ p.Does k false t s := by
  induction ts with
  | nil => exact .pure (by simp)
  | cons s ts ih =>
    unfold firstAccepted
    refine keeps_attempt (h s mem_cons_self) (by simp) fun o ho => ?_
    cases o with
    | none => exact .pure ⟨fun _ => ⟨s, mem_cons_self, ho⟩, by simp⟩
    | some r =>
      refine keeps_attempt (ih fun u hu => h u (mem_cons_of_mem s hu)) (by simp)
        fun o' ho' => .pure ⟨fun hnone => ?_, fun rs hrs => ?_⟩
      · simp_all
      · cases o' with
        | none => cases hrs
        | some rs' => exact forall_mem_cons.mpr ⟨ho, ho'.2 rs' rfl⟩

section

variable {ask : Inquiry} (hask : ∀ t u i, t.Proper p → u.Proper p →
  Keeps (p.Since base) (ask t u i).run (p.Verdict n i t u))

include hask

theorem keeps_argumentVerdict (v : Variance) (ha : a.Proper p) (hb : b.Proper p) :
    Keeps (p.Since base) (argumentRefusal ask v a b).run fun o => (o = some none → Compared (p.Does n) v a b) ∧
      ∀ r, o = some (some r) → ∀ k, ¬ Compared (p.Does k) v a b := by
  cases v with
  | input => exact (hask b a false hb ha).mono fun _ => Verdict.cases
  | output => exact (hask a b false ha hb).mono fun _ => Verdict.cases
  | invariant | both => exact (hask a b true ha hb).mono fun _ => Verdict.cases

theorem Upright.keeps_objectVerdict (hp : p.Upright) {d : Node} (hc : p.Has c) (hd : p.Has d)
    (ht : (Ty.object name c.id as).Proper p) (hu : (Ty.object name' d.id bs).Proper p) :
    Keeps (p.Since base) (objectRefusal p ask (.object name c.id as) (.object name' d.id bs) c.id d.id as bs i).run
      (p.Verdict (n + 1) i (.object name c.id as) (.object name' d.id bs)) := by
  by_cases hcd : c = d
  · subst hcd
    simp only [objectRefusal, hc.at_, bne_self_eq_false, Bool.false_eq_true, if_false]
    refine keeps_attempt (keeps_attempts (A := fun e => Compared (p.Does n) e.1.shape.variance (.argument as e.2)
      (.argument bs e.2)) (B := fun e => ∀ k, ¬ Compared (p.Does k) e.1.shape.variance (.argument as e.2)
      (.argument bs e.2)) fun e he => ?_) (fun _ => trivial) fun rs hrs => .pure ?_
    · have hq := mk_mem_zipIdx_iff_getElem?.mp he
      exact keeps_argumentVerdict hask _ (Proper.argument hc ht hq) (Proper.argument hc hu hq)
    · obtain ⟨rfl, hall⟩ | ⟨hne, e, he, hnot⟩ := hrs rs rfl
      · exact Fits.same hc fun k q hq => hall (q, k) (mk_mem_zipIdx_iff_getElem?.mpr hq)
      · have hempty : rs.isEmpty = false := by simpa using hne
        simp only [hempty]
        intro k hdoes
        cases k with
        | zero => exact hdoes
        | succ k =>
          obtain ⟨_, _, _, heq, hc', hcase⟩ := Fits.assignee hc hdoes
          injection heq with _ hid hargs
          obtain rfl := hc.eq_of_id hc' hid
          grind
  · have hid := hc.bne_id hd hcd
    -- A class that is another one does only if one of the types it says it is does.
    have hinv (k : Nat) (hdoes : p.Does k i (.object name c.id as) (.object name' d.id bs)) :
        i = false ∧ ∃ s ∈ p.supers d bs, ∃ k, p.Does k false (.object name c.id as) s := by
      cases k with
      | zero => exact hdoes.elim
      | succ k =>
        obtain ⟨_, _, _, heq, hc', hcase⟩ := Fits.assignee hd hdoes
        grind
    cases i with
    | true =>
      simp only [objectRefusal, hc.at_, hd.at_, hid, if_true]
      exact .pure fun k hdoes => by cases (hinv k hdoes).1
    | false =>
      rw [objectRefusal_of_ne hc hd hcd]
      refine keeps_ask (hp.keeps_supers hd bs) fun ss hss => ?_
      subst hss
      refine keeps_attempt (keeps_firstVerdict (t := .object name c.id as) fun s hs =>
        hask _ s false ht (hp.proper_supers hd hu hs)) (fun _ => trivial) fun o ho => .pure ?_
      cases o with
      | none =>
        obtain ⟨s, hs, hdoes⟩ := ho.1 rfl
        exact Fits.above hc hd hcd rfl hs hdoes
      | some rs =>
        intro k hdoes
        grind

end

theorem Grown.transGen_is (hp : p.Grown) {k : Node} (hc : p.Has c) (h : TransGen p.Under c k) : TransGen p.Is c k := by
  have hone {c k : Node} (hc : p.Has c) (h : p.Under c k) : p.Is c k := by
    obtain ⟨t, ht, hd⟩ := h
    exact is_of_denoted hc ht hd
  induction h using TransGen.head_induction_on with
  | single h => exact .single (hone hc h)
  | head h _ ih => exact .head (hone hc h) (ih (hp.has_of_under hc h))

/-- Whatever is remembered, an answer tells whether a type does for another. -/
theorem Upright.keeps_refusalIn (hp : p.Upright) (n : Nat) (ht : t.Proper p) (hu : u.Proper p) (i : Bool) :
    Keeps (p.Since base) (p.refusalIn n t u i).run (p.Verdict n i t u) := by
  induction n generalizing t u i with
  | zero => exact .pure trivial
  | succ n ih =>
    have hask (t u : Ty) (i : Bool) (ht : t.Proper p) (hu : u.Proper p) := ih ht hu i
    rw [refusalIn]
    cases hu with
    | self hv hid =>
      cases ht with
      | self => exact .pure Fits.selves
      | object hc hclass hlen ha =>
        refine keeps_attempt (hask _ _ i (.object hc hclass hlen ha) hv) (fun _ => trivial) fun o ho => .pure ?_
        cases o with
        | none => exact Fits.self (by simp) ho
        | some r =>
          intro k hdoes
          cases k with
          | zero => exact hdoes
          | succ k =>
            obtain ⟨v, heq, h⟩ | ⟨_, _, _, heq, -⟩ := Fits.assigned hc hdoes
            · cases heq
              exact ho k h
            · cases heq
    | object hd hclass hlen hb =>
      cases ht with
      | self =>
        refine .pure fun k hdoes => ?_
        cases k with
        | zero => exact hdoes
        | succ k => cases hdoes
      | object hc hclass' hlen' ha =>
        exact hp.keeps_objectVerdict hask hc hd (.object hc hclass' hlen' ha) (.object hd hclass hlen hb)

/-! ### A preorder -/

/-- With some patience it is found that a type does for another, when `m` is remembered. -/
def Accepts (p : Program) (assignee assigned : Ty) (m : Memo) : Prop :=
  ∃ n, ((p.refusalIn n assignee assigned false).run.run m).1 = some none

/-- Whether it is found with a given patience, before anything else is asked. -/
def accepted (p : Program) (n : Nat) (assignee assigned : Ty) (invariant : Bool) : Bool :=
  ((p.refusalIn n assignee assigned invariant).run.run (after (p := p) [])).1.any Option.isNone

theorem eq_of_accepted (h : p.accepted n t u i) :
    ((p.refusalIn n t u i).run.run (after (p := p) [])).1 = some none := by
  unfold accepted at h
  generalize ((p.refusalIn n t u i).run.run (after (p := p) [])).1 = o at h ⊢
  rcases o with - | - | r
  · cases h
  · rfl
  · cases h

theorem Accepts.does (hp : p.Upright) (hm : p.Since base m) (ht : t.Proper p) (hu : u.Proper p)
    (h : p.Accepts t u m) : ∃ n, p.Does n false t u := by
  obtain ⟨n, hn⟩ := h
  have hverdict := (hp.keeps_refusalIn n ht hu false m hm).1
  rw [hn] at hverdict
  exact ⟨n, hverdict⟩

/-- Whatever the patience, no answer is a refusal. -/
def NeverRefused (p : Program) (t u : Ty) (m : Memo) : Prop :=
  ∀ k o, ((p.refusalIn k t u false).run.run m).1 = some o → o = none

theorem NeverRefused.refusal_eq_none (h : p.NeverRefused t u m) : ((p.refusal t u false).run m).1 = none := by
  show ((p.refusalIn endurance t u false).run.run m).1.join = none
  cases ho : ((p.refusalIn endurance t u false).run.run m).1 with
  | none => rfl
  | some o =>
    rw [h endurance o ho]
    rfl

theorem NeverRefused.accepts (h : p.NeverRefused t u m) (hs : p.Settles t u false m) : p.Accepts t u m := by
  obtain ⟨k, o, m', hk⟩ := hs
  have hrun := hk k le_rfl
  obtain rfl := h k o (congrArg Prod.fst hrun)
  exact ⟨k, congrArg Prod.fst hrun⟩

theorem Does.neverRefused (hp : p.Upright) (hm : p.Since base m) (ht : t.Proper p) (hu : u.Proper p)
    (h : p.Does n false t u) : p.NeverRefused t u m := by
  intro k o ho
  have hverdict := (hp.keeps_refusalIn k ht hu false m hm).1
  rw [ho] at hverdict
  cases o with
  | none => rfl
  | some r => exact absurd h (hverdict n)

theorem Closed.same_iff (hc : p.Has c) (ha : (Ty.object name c.id as).Closed p)
    (hb : (Ty.object name' c.id bs).Closed p) : (Ty.object name c.id as).same (Ty.object name' c.id bs) ↔
      ∀ e ∈ (p.typeParameters c).zipIdx, (Ty.argument as e.2).same (Ty.argument bs e.2) := by
  obtain ⟨hlen, -⟩ := Closed.arguments hc ha
  obtain ⟨hlen', -⟩ := Closed.arguments hc hb
  simp only [Ty.same, beq_self_eq_true, Bool.true_and, Ty.sameAll_iff, hlen, hlen', true_and]
  constructor
  · grind
  · intro h k hk
    exact h ((p.typeParameters c)[k], k) (mk_mem_zipIdx_iff_getElem?.mpr (List.getElem?_eq_getElem hk))

/-- From some patience on this is the answer, whatever is remembered. -/
def Answered (p : Program) (n : Nat) (t u : Ty) (i : Bool) (o : Option Refusal) : Prop :=
  ∀ k, n ≤ k → ∀ m, (p.refusalIn k t u i).run.run m = (some o, m)

theorem run_filterMapM_answers {α β : Type} {f : Nat → α → Attempt (Option β)} {es : List α} {A : α → Prop}
    (h : ∀ e ∈ es, ∃ o, (o = none ↔ A e) ∧ ∀ k, n ≤ k → ∀ m, (f k e).run.run m = (some o, m)) :
    ∃ rs, (rs = [] ↔ ∀ e ∈ es, A e) ∧ ∀ k, n ≤ k → ∀ m, (es.filterMapM (f k)).run.run m = (some rs, m) := by
  induction es with
  | nil => exact ⟨[], by simp, fun _ _ _ => rfl⟩
  | cons e es ih =>
    obtain ⟨o, ho, hrun⟩ := h e mem_cons_self
    obtain ⟨rs, hrs, hruns⟩ := ih fun e' he' => h e' (mem_cons_of_mem e he')
    refine ⟨o.toList ++ rs, ?_, fun k hk m => ?_⟩
    · simp_all
    · rw [filterMapM_cons, OptionT.run_bind, Option.elimM, StateT.run_bind, hrun k hk m]
      cases o with
      | none => exact hruns k hk m
      | some r =>
        show ((es.filterMapM (f k) >>= fun rs => Pure.pure (r :: rs)).run).run m = _
        rw [OptionT.run_bind, Option.elimM, StateT.run_bind, hruns k hk m]
        rfl

theorem answered_of_arguments (name name' : String) (hc : p.Has c) {A : Node × Nat → Prop} (i : Bool)
    (h : ∀ e ∈ (p.typeParameters c).zipIdx, ∃ o, (o = none ↔ A e) ∧ ∀ k, n ≤ k → ∀ m,
      (argumentRefusal (p.refusalIn k) e.1.shape.variance (.argument as e.2) (.argument bs e.2)).run.run m =
        (some o, m)) : ∃ o, (o = none ↔ ∀ e ∈ (p.typeParameters c).zipIdx, A e) ∧
      p.Answered (n + 1) (.object name c.id as) (.object name' c.id bs) i o := by
  obtain ⟨rs, hrs, hrun⟩ := run_filterMapM_answers (f := fun k (e : Node × Nat) =>
    argumentRefusal (p.refusalIn k) e.1.shape.variance (.argument as e.2) (.argument bs e.2)) h
  refine ⟨if rs.isEmpty then none else some (.node (.object name c.id as) (.object name' c.id bs) i rs), ?_, ?_⟩
  · rw [← hrs]
    cases rs <;> simp
  · intro k hk m
    obtain ⟨k, rfl⟩ : ∃ j, k = j + 1 := ⟨k - 1, by omega⟩
    show ((objectRefusal p (p.refusalIn k) (.object name c.id as) (.object name' c.id bs) c.id c.id as bs
      i).run).run m = _
    simp only [objectRefusal, hc.at_, bne_self_eq_false, Bool.false_eq_true, if_false]
    rw [OptionT.run_bind, Option.elimM, StateT.run_bind, hrun k (by omega) m]
    rfl

theorem exists_bound {P : α → Nat → Prop} (hmono : ∀ a n k, P a n → n ≤ k → P a k) {as : List α}
    (h : ∀ a ∈ as, ∃ n, P a n) : ∃ n, ∀ a ∈ as, P a n := by
  induction as with
  | nil => exact ⟨0, nofun⟩
  | cons a as ih =>
    obtain ⟨n, hn⟩ := h a mem_cons_self
    obtain ⟨k, hk⟩ := ih fun c hc => h c (mem_cons_of_mem a hc)
    exact ⟨max n k, forall_mem_cons.mpr ⟨hmono a n _ hn (Nat.le_max_left n k),
      fun c hc => hmono c k _ (hk c hc) (Nat.le_max_right n k)⟩⟩

theorem answered_none (name name' : String) (hc : p.Has c) (h : ∀ e ∈ (p.typeParameters c).zipIdx, ∀ i,
      p.Answered n (.argument as e.2) (.argument bs e.2) i none ∧
      p.Answered n (.argument bs e.2) (.argument as e.2) i none) (i : Bool) :
    p.Answered (n + 1) (.object name c.id as) (.object name' c.id bs) i none := by
  obtain ⟨o, ho, hanswer⟩ := answered_of_arguments (A := fun _ => True) name name' hc i fun e he => by
    refine ⟨none, by simp, ?_⟩
    cases e.1.shape.variance with
    | input => exact (h e he false).2
    | output => exact (h e he false).1
    | invariant | both => exact (h e he true).1
  rwa [ho.mpr fun _ _ => trivial] at hanswer

theorem Closed.answered_same (ha : a.Closed p) :
    ∃ n, ∀ b, b.Closed p → a.same b → ∀ i, p.Answered n a b i none ∧ p.Answered n b a i none := by
  induction ha with
  | @object name c as hc hclass hlen has ih =>
    obtain ⟨n, hn⟩ := exists_bound (P := fun (a : Ty) n => ∀ b : Ty, b.Closed p → a.same b → ∀ i,
      p.Answered n a b i none ∧ p.Answered n b a i none) (fun a n k h hnk b hb hab i =>
        ⟨fun j hj => (h b hb hab i).1 j (hnk.trans hj), fun j hj => (h b hb hab i).2 j (hnk.trans hj)⟩) ih
    refine ⟨n + 1, fun b hb hab => ?_⟩
    obtain ⟨hd, -, -, -⟩ := id hb
    rename_i name' d bs
    obtain rfl : c = d := hc.eq_of_id hd (beq_iff_eq.mp (Bool.and_eq_true_iff.mp hab).1)
    have hsame := (Closed.same_iff hc (.object hc hclass hlen has) hb).mp hab
    grind [Ty.argument_mem, Closed.argument, answered_none]

theorem Closed.same_self (h : t.Closed p) : t.same t := by
  induction h with
  | object hc hclass hlen ha ih =>
    refine (Closed.same_iff hc (.object hc hclass hlen ha) (.object hc hclass hlen ha)).mpr fun e he => ih _ ?_
    grind [Ty.argument_mem]

theorem Closed.run_refusalIn (h : t.Closed p) :
    ∃ n, ∀ k, n ≤ k → ∀ i m, (p.refusalIn k t t i).run.run m = (some none, m) := by
  obtain ⟨n, hn⟩ := Closed.answered_same h
  exact ⟨n, fun k hk i m => (hn t h (Closed.same_self h) i).1 k hk m⟩

/-- An answer is found if no class takes the sides of a comparison for each other, or none speaks of one
that leads back to it. -/
theorem Upright.settles (hp : p.Upright)
    (h : (∀ c, p.Has c → p.keepsSides c) ∨ ∀ c, p.Has c → ¬ TransGen p.Mentions c c)
    (qs : List (Question p)) (ht : t.Over p) (hu : u.Over p) : p.Settles t u i (after qs) := by
  have hgrown := hp.grown
  have hsimple (c : Node) (hc : p.Has c) (s : Node) (hs : s ∈ p.superExpressions c) :=
    hgrown.superExpression hc (hp.passes c hc) hs
  have hbounded : p.Bounded p.Has :=
    ⟨⟨fun _ hc => hc, fun c hc s hs => (hsimple c hc s hs).1⟩, fun c k hc hk => hgrown.has_of_mentions hc hk⟩
  obtain ⟨n, htn⟩ := exists_among (S := p.Has) hgrown ht fun _ hc _ => hc
  obtain ⟨k, huk⟩ := exists_among (S := p.Has) hgrown hu fun _ hc _ => hc
  refine .of_acc hgrown qs ht hu ?_ i
  rcases h with h | h
  · have hsided : p.OneSided p.Has :=
      { hbounded with
        sides := fun c hc q hq => by simpa using all_eq_true.mp (h c hc) q hq
        named := fun c hc s hs => Option.isSome_iff_exists.mpr (hsimple c hc s hs).2.1
        ends := fun c hc => hgrown.acc_of_acyclic hgrown.has_of_under hc fun k hk =>
          hp.acyclic k (has_of_path hgrown.has_of_under hc hk) }
    exact hsided.acc_next (htn.mono (Nat.le_max_left n k)) (huk.mono (Nat.le_max_right n k))
  · have hacc (c : Node) (hc : p.Has c) := hgrown.acc_of_acyclic hgrown.has_of_mentions hc fun k hk =>
      h k (has_of_path hgrown.has_of_mentions hc hk)
    exact acc_next_of_below (hbounded.acc_below hacc htn) (hbounded.acc_below hacc huk)

/-- Which type does for which is a preorder on closed types, if the classes pass their type parameters on
as they may and none is above itself. The questions before do not matter. By way of a third a type is
never refused, and it is accepted unless there is no answer, which takes a parameter that changes sides
and classes that speak of each other. -/
theorem accepts_preorder {ss : List Source} (hclean : ∀ s ∈ ss, Diagnostic.hasErrors (s.parse none).remarks = false)
    (hp : p = .ofDocuments (ss.map (·.parse none))) (hpass : ∀ c, p.Has c → p.passesOn c = true)
    (hacyclic : ∀ c, p.Has c → ¬ TransGen p.Is c c) :
    (∀ a, a.Closed p → ∀ qs : List (Question p), p.Accepts a a (after qs) ∧
      ((p.refusal a a false).run (after qs)).1 = none) ∧
    ∀ a b c, a.Closed p → b.Closed p → c.Closed p → ∀ qs qs' qs'' : List (Question p),
      p.Accepts b a (after qs) → p.Accepts c b (after qs') →
        ((p.refusal c a false).run (after qs'')).1 = none ∧
        (p.Settles c a false (after qs'') → p.Accepts c a (after qs'')) ∧
        ((∀ d, p.Has d → p.keepsSides d = true) ∨ (∀ d, p.Has d → ¬ TransGen p.Mentions d d) →
          p.Accepts c a (after qs'')) := by
  have hgrown : p.Grown := hp ▸ grown_of_no_errors hclean
  have hup : p.Upright := ⟨hgrown, hpass, fun c hc hcycle => hacyclic c hc (hgrown.transGen_is hc hcycle)⟩
  constructor
  · intro a ha qs
    obtain ⟨n, hn⟩ := Closed.run_refusalIn ha
    have haccepts : p.Accepts a a (after qs) := ⟨n, by rw [hn n le_rfl]⟩
    obtain ⟨k, hdoes⟩ := haccepts.does hup (since_after hgrown qs) ha.proper ha.proper
    exact ⟨haccepts, (hdoes.neverRefused hup (since_after hgrown qs) ha.proper ha.proper).refusal_eq_none⟩
  · intro a b c ha hb hc qs qs' qs'' hba hcb
    obtain ⟨n, hn⟩ := hba.does hup (since_after hgrown qs) hb.proper ha.proper
    obtain ⟨k, hk⟩ := hcb.does hup (since_after hgrown qs') hc.proper hb.proper
    have hnever := (hk.trans hup hb hn).neverRefused hup (since_after hgrown qs'') hc.proper ha.proper
    exact ⟨hnever.refusal_eq_none, hnever.accepts,
      fun h => hnever.accepts (hup.settles h qs'' hc.proper.over_ ha.proper.over_)⟩

def classNamed? (p : Program) (name : String) : Option Node :=
  (p.matching Shape.isClass).find? fun c => p.nameOf? c == some name

def typeNamed (p : Program) (name : String) (args : List Ty) : Ty :=
  .object name (((p.classNamed? name).map (·.id)).getD 0) args

def typeNamedOf (p : Program) (outer inner : String) : Ty := p.typeNamed outer [p.typeNamed inner []]

def takes (p : Program) (name : String) (k : Nat) : Bool :=
  (p.classNamed? name).any fun c => (p.typeParameters c).length == k

theorem typeNamed_eq (h : p.classNamed? name = some c) : p.typeNamed name args = .object name c.id args := by
  simp [typeNamed, h]

theorem closed_typeNamed (hp : p.Grown) (h : p.takes name args.length) (ha : ∀ t ∈ args, t.Closed p) :
    (p.typeNamed name args).Closed p := by
  obtain ⟨c, hc, hlen⟩ := (Option.any_eq_true _ _).mp h
  obtain ⟨hhas, hclass⟩ := has_of_mem_matching hp (mem_of_find?_eq_some hc)
  rw [typeNamed_eq hc]
  exact .object hhas hclass (eq_of_beq hlen).symm ha

theorem closed_typeNamedOf (hp : p.Grown) (h : p.takes name 1) (h' : p.takes name' 0) :
    (p.typeNamedOf name name').Closed p :=
  closed_typeNamed hp h (forall_mem_singleton.mpr (closed_typeNamed hp h' nofun))

def boxes : List Source :=
  [.ofString .module "test:boxes.loa"
    "class Animal { } class Cat { is Animal. } class Source<out T> { } class Box<out T> { is Source<T>. }"]

def boxProgram : Program := .ofDocuments (boxes.map (·.parse none))

theorem accepts_preorder_boxes :
    boxProgram.Accepts (boxProgram.typeNamedOf "Box" "Animal") (boxProgram.typeNamedOf "Box" "Cat")
      (after (p := boxProgram) []) ∧
    boxProgram.Accepts (boxProgram.typeNamedOf "Source" "Animal") (boxProgram.typeNamedOf "Box" "Animal")
      (after (p := boxProgram) []) ∧
    ∀ qs : List (Question boxProgram),
      boxProgram.Accepts (boxProgram.typeNamedOf "Source" "Animal") (boxProgram.typeNamedOf "Box" "Cat")
        (after qs) := by
  -- Classes say that they are classes that are declared before them.
  have hfacts : (∀ s ∈ boxes, Diagnostic.hasErrors (s.parse none).remarks = false) ∧
      (∀ c ∈ boxProgram.all, boxProgram.passesOn c = true ∧ boxProgram.keepsSides c = true ∧
        ∀ k ∈ boxProgram.superClasses c, k.id < c.id) ∧
      boxProgram.takes "Animal" 0 = true ∧ boxProgram.takes "Cat" 0 = true ∧ boxProgram.takes "Box" 1 = true ∧
      boxProgram.takes "Source" 1 = true ∧
      boxProgram.accepted 4 (boxProgram.typeNamedOf "Box" "Animal") (boxProgram.typeNamedOf "Box" "Cat") false ∧
      boxProgram.accepted 4 (boxProgram.typeNamedOf "Source" "Animal") (boxProgram.typeNamedOf "Box" "Animal")
        false := by
    decide +kernel
  obtain ⟨hclean, hclasses, hanimal, hcat, hbox, hsource, hcats, hboxes⟩ := hfacts
  have hgrown : boxProgram.Grown := grown_of_no_errors hclean
  have hall (c : Node) (hc : boxProgram.Has c) := hclasses c (hgrown.sown.mem_all.mpr hc)
  refine ⟨⟨4, eq_of_accepted hcats⟩, ⟨4, eq_of_accepted hboxes⟩, fun qs => ?_⟩
  have hpreorder := accepts_preorder hclean rfl (fun c hc => (hall c hc).1) fun c hc =>
    hgrown.acyclic_of_before hgrown.has_of_is (fun c hc => (hclasses c hc).2.2) hc
  exact (hpreorder.2 _ _ _ (closed_typeNamedOf hgrown hbox hcat) (closed_typeNamedOf hgrown hbox hanimal)
    (closed_typeNamedOf hgrown hsource hanimal) [] [] qs ⟨4, eq_of_accepted hcats⟩ ⟨4, eq_of_accepted hboxes⟩).2.2
    (.inl fun c hc => (hall c hc).2.1)

end Program

end Parlance
