import Parlance.Proofs.Verdicts
/-!
What is accepted where only the same type should do: behind a parameter that is `in` or `out` the arguments
are let differ.
-/
namespace Parlance

open List

inductive Ty.Rigid (p : Program) : Ty → Prop where
  | object {name : String} {c : Node} {args : List Ty} (hc : p.Has c)
    (hfixes : ∀ q ∈ p.typeParameters c, q.shape.variance.fixes) (ha : ∀ t ∈ args, Rigid p t) :
    Rigid p (object name c.id args)

namespace Program

variable {p : Program} {R : Ty → Ty → Prop} {n : Nat} {a b t u : Ty} {v : Variance} {name name' : String}
  {as bs : List Ty} {c : Node} {base m : Memo}

theorem Rigid.arguments (hc : p.Has c) (h : (Ty.object name c.id as).Rigid p) :
    (∀ q ∈ p.typeParameters c, q.shape.variance.fixes) ∧ ∀ t ∈ as, t.Rigid p := by
  generalize ht : Ty.object name c.id as = t at h
  cases h with
  | object hc' hfixes ha =>
    injection ht with _ hid hargs
    obtain rfl := hc.eq_of_id hc' hid
    subst hargs
    exact ⟨hfixes, ha⟩

/-- Whether a rigid type and another are the same is found out without looking at what classes say they
are. -/
theorem Rigid.answered (ha : a.Closed p) (hr : a.Rigid p) : ∃ n, ∀ b, b.Closed p →
    ∃ o, (o = none ↔ a.same b) ∧ p.Answered n a b true o := by
  induction ha with
  | @object name c as hc hclass hlen has ih =>
    obtain ⟨hfixes, hrigid⟩ := Rigid.arguments hc hr
    obtain ⟨n, hn⟩ := exists_bound (P := fun (a : Ty) n => ∀ b : Ty, b.Closed p →
      ∃ o, (o = none ↔ a.same b) ∧ p.Answered n a b true o) (fun a n k h hnk b hb => by
        obtain ⟨o, ho, hanswer⟩ := h b hb
        exact ⟨o, ho, fun j hj => hanswer j (hnk.trans hj)⟩) fun t ht => ih t ht (hrigid t ht)
    refine ⟨n + 1, fun b hb => ?_⟩
    obtain ⟨hd, -, -, -⟩ := id hb
    rename_i name' d bs
    by_cases hcd : c = d
    · subst hcd
      rw [Closed.same_iff hc (.object hc hclass hlen has) hb]
      refine answered_of_arguments name name' hc true fun e he => ?_
      have hq := mk_mem_zipIdx_iff_getElem?.mp he
      have hmem := Ty.argument_mem (hlen ▸ (List.getElem?_eq_some_iff.mp hq).1)
      obtain ⟨o, ho, hanswer⟩ := hn _ hmem _ (Closed.argument hc hb hq)
      refine ⟨o, ho, ?_⟩
      have hfix := hfixes e.1 (mem_of_getElem? hq)
      cases hv : e.1.shape.variance with
      | input | output => rw [hv] at hfix; cases hfix
      | invariant | both => exact hanswer
    · have hid := hc.bne_id hd hcd
      refine ⟨some (.node (.object name c.id as) (.object name' d.id bs) true []), ?_, fun k hk m => ?_⟩
      · simp [Ty.same, bne_iff_ne.mp hid]
      · obtain ⟨k, rfl⟩ : ∃ j, k = j + 1 := ⟨k - 1, by omega⟩
        show ((objectRefusal p (p.refusalIn k) (.object name c.id as) (.object name' d.id bs) c.id d.id as bs
          true).run).run m = _
        simp only [objectRefusal, hc.at_, hd.at_, hid, if_true]
        rfl

/-! ### Types that have to be the same -/

/-- Types of the same class with arguments of the same class, and so on, except for what stands behind an
`in` or an `out`: there the one has to do for the other as `R` says. -/
inductive Congruent (p : Program) (R : Ty → Ty → Prop) : Ty → Ty → Prop where
  | object {name name' : String} {c : Node} {as bs : List Ty} (hc : p.Has c)
    (hfixed : ∀ k q, (p.typeParameters c)[k]? = some q → q.shape.variance.fixes →
      Congruent p R (.argument as k) (.argument bs k))
    (hloose : ∀ k q, (p.typeParameters c)[k]? = some q → q.shape.variance.fixes = false →
      Compared (fun _ => R) q.shape.variance (.argument as k) (.argument bs k)) :
    Congruent p R (.object name c.id as) (.object name' c.id bs)

theorem Congruent.arguments {d : Node} (hc : p.Has c) (hd : p.Has d)
    (h : p.Congruent R (.object name c.id as) (.object name' d.id bs)) : c = d ∧
      ∀ k q, (p.typeParameters c)[k]? = some q →
        (q.shape.variance.fixes → p.Congruent R (.argument as k) (.argument bs k)) ∧
        (q.shape.variance.fixes = false →
          Compared (fun _ => R) q.shape.variance (.argument as k) (.argument bs k)) := by
  generalize ht : Ty.object name c.id as = t, hu : Ty.object name' d.id bs = u at h
  cases h with
  | object hc' hfixed hloose =>
    injection ht with _ hid has
    injection hu with _ hid' hbs
    obtain rfl := hc.eq_of_id hc' hid
    obtain rfl := hd.eq_of_id hc hid'
    grind

theorem Congruent.same (ha : a.Closed p) (hb : b.Closed p) (hr : a.Rigid p) (h : p.Congruent R a b) : a.same b := by
  induction ha generalizing b with
  | @object name c as hc hclass hlen has ih =>
    obtain ⟨hfixes, hrigid⟩ := Rigid.arguments hc hr
    obtain ⟨hd, -, -, -⟩ := id hb
    obtain ⟨rfl, hargs⟩ := h.arguments hc hd
    refine (Closed.same_iff hc (.object hc hclass hlen has) hb).mpr fun e he => ?_
    grind [Ty.argument_mem, Closed.argument]

def EverAccepts (p : Program) (t u : Ty) : Prop := ∃ m, p.Since (.fresh p) m ∧ p.Accepts t u m

def EverRefuses (p : Program) (t u : Ty) : Prop :=
  ∃ m n r, p.Since (.fresh p) m ∧ ((p.refusalIn n t u false).run.run m).1 = some (some r)

/-- What an answer says about two types that have to be the same. -/
def FixedVerdict (p : Program) (a b : Ty) (o : Option (Option Refusal)) : Prop :=
  (o = some none → p.Congruent p.EverAccepts a b) ∧
    ∀ r, o = some (some r) → ¬ p.Congruent (fun t u => ¬ p.EverRefuses t u) a b

theorem keeps_loose (hp : p.Grown) (n : Nat) (ht : t.Closed p) (hu : u.Closed p) :
    Keeps (p.Since (.fresh p)) (p.refusalIn n t u false).run fun o =>
      (o = some none → p.EverAccepts t u) ∧ ∀ r, o = some (some r) → p.EverRefuses t u := by
  intro m hm
  refine ⟨⟨fun h => ⟨m, hm, n, h⟩, fun r h => ⟨m, n, r, hm, h⟩⟩, ?_⟩
  exact (hp.walk.refusalIn n (fun _ => ht.proper.over_) (fun _ => hu.proper.over_) false (.fresh p) m hm).2

theorem keeps_fixedVerdict (hp : p.Grown) (n : Nat) (ha : a.Closed p) (hb : b.Closed p) :
    Keeps (p.Since (.fresh p)) (p.refusalIn n a b true).run (p.FixedVerdict a b) := by
  induction n generalizing a b with
  | zero => exact .pure (by simp [FixedVerdict])
  | succ n ih =>
    obtain ⟨hc, hclass, hlen, has⟩ := id ha
    obtain ⟨hd, hclass', hlen', hbs⟩ := id hb
    rename_i name c as name' d bs
    show Keeps _ (objectRefusal p (p.refusalIn n) (.object name c.id as) (.object name' d.id bs) c.id d.id as bs
      true).run _
    by_cases hcd : c = d
    · subst hcd
      simp only [objectRefusal, hc.at_, bne_self_eq_false, Bool.false_eq_true, if_false]
      -- An argument is found to do or not to do, as its parameter says.
      refine keeps_attempt (keeps_attempts
        (A := fun e : Node × Nat => (e.1.shape.variance.fixes →
            p.Congruent p.EverAccepts (.argument as e.2) (.argument bs e.2)) ∧
          (e.1.shape.variance.fixes = false → Compared (fun _ => p.EverAccepts) e.1.shape.variance
            (.argument as e.2) (.argument bs e.2)))
        (B := fun e : Node × Nat => ¬ ((e.1.shape.variance.fixes →
            p.Congruent (fun t u => ¬ p.EverRefuses t u) (.argument as e.2) (.argument bs e.2)) ∧
          (e.1.shape.variance.fixes = false → Compared (fun _ t u => ¬ p.EverRefuses t u) e.1.shape.variance
            (.argument as e.2) (.argument bs e.2)))) fun e he => ?_) (by simp [FixedVerdict]) fun rs hrs => .pure ?_
      · have hq := mk_mem_zipIdx_iff_getElem?.mp he
        have ha' := Closed.argument hc ha hq
        have hb' := Closed.argument hc hb hq
        cases e.1.shape.variance with
        | input =>
          exact (keeps_loose hp n hb' ha').mono fun o ho =>
            ⟨fun h => ⟨by simp [Variance.fixes], fun _ => ho.1 h⟩, fun r h hnot => hnot.2 rfl (ho.2 r h)⟩
        | output =>
          exact (keeps_loose hp n ha' hb').mono fun o ho =>
            ⟨fun h => ⟨by simp [Variance.fixes], fun _ => ho.1 h⟩, fun r h hnot => hnot.2 rfl (ho.2 r h)⟩
        | invariant | both =>
          exact (ih ha' hb').mono fun o ho =>
            ⟨fun h => ⟨fun _ => ho.1 h, by simp [Variance.fixes]⟩, fun r h hnot => ho.2 r h (hnot.1 rfl)⟩
      · obtain ⟨rfl, hall⟩ | ⟨hne, e, he, hnot⟩ := hrs rs rfl
        · refine ⟨fun _ => .object hc (fun k q hq => ?_) fun k q hq => ?_, by simp⟩
          · exact (hall (q, k) (mk_mem_zipIdx_iff_getElem?.mpr hq)).1
          · exact (hall (q, k) (mk_mem_zipIdx_iff_getElem?.mpr hq)).2
        · have hempty : rs.isEmpty = false := by simpa using hne
          simp only [hempty]
          refine ⟨by simp, fun r _ h => hnot ?_⟩
          exact (h.arguments hc hc).2 e.2 e.1 (mk_mem_zipIdx_iff_getElem?.mp he)
    · have hid := hc.bne_id hd hcd
      simp only [objectRefusal, hc.at_, hd.at_, hid, if_true]
      exact .pure ⟨by simp, fun r _ h => hcd (h.arguments hc hd).1⟩

/-- With some patience it is found that a type does where nothing but the same should, when `m` is
remembered. -/
def AcceptsFixed (p : Program) (a b : Ty) (m : Memo) : Prop :=
  ∃ n, ((p.refusalIn n a b true).run.run m).1 = some none

/-- Where nothing but the same type should do, the same type always does. What does is of the same class
at every depth, except behind an `in` or an `out`, where it is enough that the one type has been accepted
for the other; and what does not is not so, or has been refused there. So if no class in the type has such
parameters, nothing else does, and there always is an answer. -/
theorem acceptsFixed_congruent {ss : List Source}
    (hclean : ∀ s ∈ ss, Diagnostic.hasErrors (s.parse none).remarks = false)
    (hp : p = .ofDocuments (ss.map (·.parse none))) (ha : a.Closed p) (hb : b.Closed p) (qs : List (Question p)) :
    (a.same b = true → p.AcceptsFixed a b (after qs)) ∧
    (p.AcceptsFixed a b (after qs) → p.Congruent p.EverAccepts a b) ∧
    (p.Settles a b true (after qs) → ¬ p.AcceptsFixed a b (after qs) →
      ¬ p.Congruent (fun t u => ¬ p.EverRefuses t u) a b) ∧
    (a.Rigid p → p.Settles a b true (after qs) ∧ (p.AcceptsFixed a b (after qs) ↔ a.same b = true)) := by
  have hgrown : p.Grown := hp ▸ grown_of_no_errors hclean
  have hverdict (n : Nat) := (keeps_fixedVerdict hgrown n ha hb (after qs) (since_after hgrown qs)).1
  have hsame (h : a.same b = true) : p.AcceptsFixed a b (after qs) := by
    obtain ⟨n, hn⟩ := Closed.answered_same ha
    exact ⟨n, by rw [(hn b hb h true).1 n le_rfl]⟩
  have hcongruent (h : p.AcceptsFixed a b (after qs)) : p.Congruent p.EverAccepts a b := by
    obtain ⟨n, hn⟩ := h
    exact (hverdict n).1 hn
  refine ⟨hsame, hcongruent, fun hs hnot => ?_, fun hr => ⟨?_, fun h => (hcongruent h).same ha hb hr, hsame⟩⟩
  · obtain ⟨n, o, m', hn⟩ := hs
    have hrun := congrArg Prod.fst (hn n le_rfl)
    cases o with
    | none => exact absurd ⟨n, hrun⟩ hnot
    | some r => exact (hverdict n).2 r hrun
  · obtain ⟨n, hn⟩ := Rigid.answered ha hr
    obtain ⟨o, -, hanswer⟩ := hn b hb
    exact ⟨n, o, after qs, fun k hk => hanswer k hk (after qs)⟩

theorem rigid_typeNamed (hp : p.Grown)
    (h : (p.classNamed? name).any (fun c => (p.typeParameters c).all (·.shape.variance.fixes)))
    (ha : ∀ t ∈ as, t.Rigid p) : (p.typeNamed name as).Rigid p := by
  obtain ⟨c, hc, hfixes⟩ := (Option.any_eq_true _ _).mp h
  rw [typeNamed_eq hc]
  exact .object (has_of_mem_matching hp (mem_of_find?_eq_some hc)).1 (all_eq_true.mp hfixes) ha

def cells : List Source :=
  [.ofString .module "test:cells.loa"
    "class Animal { } class Cat { is Animal. } class Box<out T> { } class Cell<T> { }"]

def cellProgram : Program := .ofDocuments (cells.map (·.parse none))

def cellOf (content name : String) : Ty := cellProgram.typeNamed "Cell" [cellProgram.typeNamedOf content name]

/-- A cell of cells of cats is none of cells of animals. But a cell of boxes of cats is taken for one of
boxes of animals, though the types are not the same. -/
theorem acceptsFixed_congruent_cells : (∀ qs : List (Question cellProgram),
      ¬ cellProgram.AcceptsFixed (cellOf "Cell" "Animal") (cellOf "Cell" "Cat") (after qs)) ∧
    (cellOf "Box" "Animal").same (cellOf "Box" "Cat") = false ∧
    cellProgram.AcceptsFixed (cellOf "Box" "Animal") (cellOf "Box" "Cat") (after (p := cellProgram) []) ∧
    cellProgram.Congruent cellProgram.EverAccepts (cellOf "Box" "Animal") (cellOf "Box" "Cat") := by
  have hfacts : (∀ s ∈ cells, Diagnostic.hasErrors (s.parse none).remarks = false) ∧
      cellProgram.takes "Animal" 0 = true ∧ cellProgram.takes "Cat" 0 = true ∧ cellProgram.takes "Box" 1 = true ∧
      cellProgram.takes "Cell" 1 = true ∧
      (∀ name ∈ ["Animal", "Cell"],
        (cellProgram.classNamed? name).any (fun c =>
          (cellProgram.typeParameters c).all (·.shape.variance.fixes)) = true) ∧
      (cellOf "Cell" "Animal").same (cellOf "Cell" "Cat") = false ∧
      (cellOf "Box" "Animal").same (cellOf "Box" "Cat") = false ∧
      cellProgram.accepted 5 (cellOf "Box" "Animal") (cellOf "Box" "Cat") true := by
    decide +kernel
  obtain ⟨hclean, hanimal, hcat, hbox, hcell, hfixes, hcells, hboxes, haccepted⟩ := hfacts
  have hgrown : cellProgram.Grown := grown_of_no_errors hclean
  have hclosed {content name : String} (hcontent : cellProgram.takes content 1 = true)
      (hname : cellProgram.takes name 0 = true) : (cellOf content name).Closed cellProgram :=
    closed_typeNamed hgrown hcell (forall_mem_singleton.mpr (closed_typeNamedOf hgrown hcontent hname))
  have hrigid : (cellOf "Cell" "Animal").Rigid cellProgram := by
    refine rigid_typeNamed hgrown (hfixes "Cell" (by simp)) (forall_mem_singleton.mpr ?_)
    refine rigid_typeNamed hgrown (hfixes "Cell" (by simp)) (forall_mem_singleton.mpr ?_)
    exact rigid_typeNamed hgrown (hfixes "Animal" (by simp)) nofun
  have haccepts : cellProgram.AcceptsFixed (cellOf "Box" "Animal") (cellOf "Box" "Cat")
      (after (p := cellProgram) []) := ⟨5, eq_of_accepted haccepted⟩
  refine ⟨fun qs h => ?_, hboxes, haccepts, ?_⟩
  · have hanswer := acceptsFixed_congruent hclean rfl (hclosed hcell hanimal) (hclosed hcell hcat) qs
    rw [(hanswer.2.2.2 hrigid).2.mp h] at hcells
    cases hcells
  · exact (acceptsFixed_congruent hclean rfl (hclosed hbox hanimal) (hclosed hbox hcat) []).2.1 haccepts

end Program

end Parlance
