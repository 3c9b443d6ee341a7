import Parlance.Proofs.Hierarchies
/-!
Whether one type does for another is settled by asking the same of other types. That ends if classes speak of
no class that leads back to them; where sides never change it is enough that no class is above itself.
-/
namespace Parlance

namespace Program

open List Relation

variable {p : Program} {S : Node → Prop} {n : Nat} {t u : Ty} {I : Memo → Prop} {ts : List Ty}

/-! ### Questions that end -/

/-- With enough patience the question is answered, and from then on always alike. -/
def Succeeds {α : Type} (I : Memo → Prop) (x : Nat → Attempt α) (Q : α → Prop) : Prop :=
  ∀ m, I m → ∃ n a m', Q a ∧ I m' ∧ ∀ k, n ≤ k → (x k).run.run m = (some a, m')

namespace Succeeds

variable {α β : Type} {I : Memo → Prop} {Q : α → Prop} {R : β → Prop}

theorem pure {a : α} (h : Q a) : Succeeds I (fun _ => Pure.pure a) Q :=
  fun m hm => ⟨0, a, m, h, hm, fun _ _ => rfl⟩

theorem bind {x : Nat → Attempt α} {f : Nat → α → Attempt β} (hx : Succeeds I x Q)
    (hf : ∀ a, Q a → Succeeds I (fun k => f k a) R) : Succeeds I (fun k => x k >>= f k) R := by
  intro m hm
  obtain ⟨n, a, m', ha, hm', hn⟩ := hx m hm
  obtain ⟨n', b, m'', hb, hm'', hn'⟩ := hf a ha m' hm'
  refine ⟨max n n', b, m'', hb, hm'', fun k hk => ?_⟩
  rw [OptionT.run_bind, Option.elimM, StateT.run_bind, hn k ((Nat.le_max_left n n').trans hk)]
  exact hn' k ((Nat.le_max_right n n').trans hk)

theorem ask {x : Typing α} {f : Nat → α → Attempt β} (hx : Keeps I x Q)
    (hf : ∀ a, Q a → Succeeds I (fun k => f k a) R) : Succeeds I (fun k => liftM x >>= f k) R :=
  bind (fun m hm => ⟨0, _, _, (hx m hm).1, (hx m hm).2, fun _ _ => rfl⟩) hf

theorem of_succ {x : Nat → Attempt α} (h : Succeeds I (fun k => x (k + 1)) Q) : Succeeds I x Q := by
  intro m hm
  obtain ⟨n, a, m', ha, hm', hn⟩ := h m hm
  refine ⟨n + 1, a, m', ha, hm', fun k hk => ?_⟩
  cases k with
  | zero => cases hk
  | succ k => exact hn k (Nat.le_of_succ_le_succ hk)

theorem filterMapM {f : Nat → α → Attempt (Option β)} {as : List α}
    (h : ∀ a ∈ as, Succeeds I (fun k => f k a) fun _ => True) :
    Succeeds I (fun k => as.filterMapM (f k)) fun _ => True := by
  induction as with
  | nil =>
    simp only [filterMapM_nil]
    exact pure trivial
  | cons a as ih =>
    simp only [filterMapM_cons]
    refine bind (h a mem_cons_self) fun o _ => ?_
    have hrest := ih fun c hc => h c (mem_cons_of_mem a hc)
    cases o with
    | none => exact hrest
    | some b => exact bind hrest fun _ _ => pure trivial

theorem firstAccepted {check : Nat → Ty → Attempt (Option Refusal)}
    (h : ∀ t ∈ ts, Succeeds I (fun k => check k t) fun _ => True) :
    Succeeds I (fun k => Program.firstAccepted (check k) ts) fun _ => True := by
  induction ts with
  | nil => exact pure trivial
  | cons t ts ih =>
    simp only [Program.firstAccepted]
    refine bind (h t mem_cons_self) fun o _ => ?_
    cases o with
    | none => exact pure trivial
    | some r => exact bind (ih fun u hu => h u (mem_cons_of_mem t hu)) fun _ _ => pure trivial

end Succeeds

section

variable {base : Memo}

theorem keeps_classed (hp : p.Grown) (ht : t.Over p) :
    Keeps (p.Since base) (p.literalClass t) fun v => v.Over p ∧ p.Classed t v := by
  have hstandard (name : String) : Keeps (p.Since base) (p.standardType name)
      fun v => v.Over p ∧ v.MadeOf fun id => ∃ c, p.standard? name = some c ∧ c.id = id :=
    (keeps_standardType hp name).mono fun v hv => ⟨hv.1, hv.2 ▸ hp.madeOf_standard name⟩
  cases t with
  | integerLiteral => exact hstandard _
  | floatLiteral => exact hstandard _
  | symbol value => exact hstandard _
  | _ => exact .pure ⟨ht, rfl⟩

/-- The types that a class says it is, one for every class that it names. -/
theorem keeps_above (hp : p.Grown) {c : Node} (hc : p.Has c) {args : List Ty} (ha : ∀ t ∈ args, t.Over p) :
    Keeps (p.Since base) (p.superTypes c.id args) fun ss => (∀ s ∈ ss, s.Over p ∧ p.Above c args s) ∧
      ∀ t ∈ p.superExpressions c, p.IsSimple t → ∀ k, p.denoted? t = some k →
        ∃ name args', .object name k.id args' ∈ ss := by
  unfold superTypes
  simp only [hc.at_]
  refine (Keeps.filterMapM (S := fun t o => (∀ s ∈ o, s.Over p ∧ p.Above c args s) ∧
    (p.IsSimple t → ∀ k, p.denoted? t = some k → ∃ name args', o = some (.object name k.id args')))
    fun t ht => ?_).mono ?_
  · obtain ⟨hthas, httype⟩ := hc.superExpression ht
    refine .bind (keeps_typeExpressionType hp hthas httype) fun v hv => ?_
    have hover := hv.1.subst (over_substitution ha (some c))
    have hmade (hs : p.IsSimple t) : v.classId? = (p.denoted? t).map (·.id) ∧ v.MadeOf (p.Names t) := by
      rw [hv.2 (.type hs)]
      exact hs.made hp hthas
    split
    · rename_i name id args' hsub
      refine .pure ⟨fun s hs => ?_, fun hs k hk => ?_⟩
      · obtain rfl := Option.some.inj hs
        exact ⟨hsub ▸ hover, t, ht, v, hmade, hsub.symm, rfl⟩
      · have hvid := (hmade hs).1
        rw [hk] at hvid
        cases v with
        | object name' id' args'' =>
          cases hsub
          obtain rfl : id = k.id := Option.some.inj hvid
          exact ⟨_, _, rfl⟩
        | _ => cases hvid
    · rename_i hnot
      refine .pure ⟨nofun, fun hs k hk => ?_⟩
      have hvid := (hmade hs).1
      rw [hk] at hvid
      cases v with
      | object name' id' args'' => exact absurd rfl (hnot _ _ _)
      | _ => cases hvid
  · rintro ss ⟨os, hos, rfl⟩
    refine ⟨fun s hs => ?_, fun t ht hsimple k hk => ?_⟩
    · obtain ⟨o, ho, hos'⟩ := mem_filterMap.mp hs
      obtain ⟨t, -, ht⟩ := Forest.exists_of_mem hos.flip ho
      exact ht.1 s hos'
    · obtain ⟨o, ho, hto⟩ := Forest.exists_of_mem hos ht
      grind

theorem succeeds_behaviourRefusal {b b' : Behaviour} (hb : b.type.Over p) (hb' : b'.type.Over p) (invariant : Bool)
    {ask : Nat → Inquiry} (hask : ∀ a c i, p.Next (a, c) (b.type, b'.type) → a.Over p → c.Over p →
      Succeeds (p.Since base) (fun k => ask k a c i) fun _ => True) :
    Succeeds (p.Since base) (fun k => behaviourRefusal (ask k) b b' invariant) fun _ => True := by
  cases hb with
  | behaviour _ has hres =>
    cases hb' with
    | behaviour _ has' hres' =>
      by_cases hsel : (b.selector != b'.selector)
      · simp only [behaviourRefusal, hsel, if_true]
        exact .pure trivial
      · simp only [behaviourRefusal, hsel]
        refine .bind (.filterMapM fun e he => ?_) fun _ _ =>
          .bind (hask _ _ false .result hres hres') fun _ _ => .pure trivial
        have hget : Ty.argument b.arguments e.2 = e.1 := by
          simp [Ty.argument, mem_zipIdx_iff_getElem?.mp he]
        exact hask _ _ false (hget ▸ .behaviourArgument e.2) (.argument has' e.2)
          (has e.1 (fst_mem_of_mem_zipIdx he))

theorem succeeds_refusalStep (hp : p.Grown) (ht : t.Over p) (hu : u.Over p) (invariant : Bool) {ask : Nat → Inquiry}
    (hask : ∀ a b i, p.Next (a, b) (t, u) → a.Over p → b.Over p →
      Succeeds (p.Since base) (fun k => ask k a b i) fun _ => True) :
    Succeeds (p.Since base) (fun k => refusalStep p (ask k) t u invariant) fun _ => True := by
  obtain ⟨o, h⟩ | ⟨v, rfl, h⟩ | h := refusalStep_cases p t u invariant
  · simp only [h]
    exact .pure trivial
  · simp only [h]
    cases hu with
    | self hv => exact .bind (hask t v invariant .self ht hv) fun _ _ => .pure trivial
  · simp only [h]
    refine .ask (keeps_classed hp ht) fun t' ht' => .ask (keeps_classed hp hu) fun u' hu' => ?_
    obtain ⟨ht', hct⟩ := ht'
    obtain ⟨hu', hcu⟩ := hu'
    obtain ⟨o, h⟩ | ⟨name, i, as, name', j, bs, rfl, rfl, h⟩ | ⟨b, b', rfl, rfl, h⟩ :=
      classedRefusal_cases p t' u' invariant
    · simp only [h]
      exact .pure trivial
    · simp only [h]
      cases ht' with
      | @object _ c _ hc has =>
        cases hu' with
        | @object _ d _ hd hbs =>
          obtain ⟨o, h⟩ | ⟨hne, h⟩ | ⟨rfl, h⟩ := objectRefusal_cases hc hd
            (.object name c.id as) (.object name' d.id bs) as bs invariant
          · simp only [h]
            exact .pure trivial
          · simp only [h]
            refine .ask (keeps_above hp hd hbs) fun ss hss =>
              .bind (.firstAccepted fun s hs => ?_) fun _ _ => .pure trivial
            obtain ⟨hsover, hsabove⟩ := hss.1 s hs
            exact hask _ s false (.above hc hd hne hct hcu hsabove) (.object hc has) hsover
          · simp only [h]
            refine .bind (.filterMapM fun e he => ?_) fun _ _ => .pure trivial
            have ha := Ty.Over.argument has e.2
            have hb := Ty.Over.argument hbs e.2
            have hsame := fun i => hask _ _ i (.argument e.2 hc hct hcu) ha hb
            cases hv : e.1.shape.variance with
            | output => exact hsame false
            | input =>
              exact hask _ _ false (.input e.2 hc hct hcu (fst_mem_of_mem_zipIdx he) hv) hb ha
            | invariant => exact hsame true
            | both => exact hsame true
    · simp only [h, hct.behaviour, hcu.behaviour] at hask ⊢
      exact succeeds_behaviourRefusal ht' hu' invariant hask

theorem succeeds_refusalIn (hp : p.Grown) (h : Acc p.Next (t, u)) (ht : t.Over p) (hu : u.Over p) (invariant : Bool) :
    Succeeds (p.Since base) (fun k => p.refusalIn k t u invariant) fun _ => True := by
  generalize hq : (t, u) = q at h
  induction h generalizing t u invariant with
  | intro q _ ih =>
    subst hq
    refine .of_succ ?_
    simp only [refusalIn]
    exact succeeds_refusalStep hp ht hu invariant fun a b i hnext ha hb => ih (a, b) hnext ha hb i rfl

end

/-! ### Questions that do not end -/

section

variable {base : Memo}

theorem keeps_attempt {α β : Type} {Q : Option α → Prop} {R : Option β → Prop}
    {x : Attempt α} {f : α → Attempt β} (hx : Keeps I x.run Q) (hnone : Q none → R none)
    (hf : ∀ a, Q (some a) → Keeps I (f a).run R) : Keeps I (x >>= f).run R := by
  rw [OptionT.run_bind, Option.elimM]
  refine .bind hx fun o ho => ?_
  cases o with
  | none => exact .pure (hnone ho)
  | some a => exact hf a ho

theorem keeps_ask {α β : Type} {Q : α → Prop} {R : Option β → Prop} {x : Typing α}
    {f : α → Attempt β} (hx : Keeps I x Q) (hf : ∀ a, Q a → Keeps I (f a).run R) : Keeps I (liftM x >>= f).run R :=
  hx.bind hf

theorem keeps_firstAccepted {check : Ty → Attempt (Option Refusal)}
    (h : ∀ t ∈ ts, Keeps I (check t).run (· ≠ some none)) : Keeps I (firstAccepted check ts).run (· ≠ some none) := by
  induction ts with
  | nil => exact .pure (by simp)
  | cons t ts ih =>
    unfold firstAccepted
    refine keeps_attempt (h t mem_cons_self) (by simp) fun o ho => ?_
    cases o with
    | none => exact absurd rfl ho
    | some r =>
      refine keeps_attempt (ih fun u hu => h u (mem_cons_of_mem t hu)) (by simp) fun o ho => .pure ?_
      simp_all

/-- Types are tried one after the other, so one that gets no answer is tried if none before it does. -/
theorem stalls_firstAccepted {check : Ty → Attempt (Option Refusal)} {s : Ty}
    (h : ∀ t ∈ ts, Keeps I (check t).run (· ≠ some none)) (hmem : s ∈ ts)
    (hs : Keeps I (check s).run (· = none)) : Keeps I (firstAccepted check ts).run (· = none) := by
  induction ts with
  | nil => cases hmem
  | cons t ts ih =>
    unfold firstAccepted
    grind [keeps_attempt]

/-- A class and all those above it, of which each says what it is by names of classes. -/
structure Ladder (p : Program) (S : Node → Prop) : Prop extends Plain p S where
  named : ∀ c, S c → ∀ t ∈ p.superExpressions c, (p.denoted? t).isSome
  upward : ∀ c k, S c → p.Under c k → S k

variable {c d : Node} {name name' : String} {as bs : List Ty}

theorem refusalIn_object (hc : p.Has c) (hd : p.Has d) (hne : c ≠ d) (fuel : Nat) :
    p.refusalIn (fuel + 1) (.object name c.id as) (.object name' d.id bs) false = (do
      let supers ← p.superTypes d.id bs
      return (← firstAccepted (p.refusalIn fuel (.object name c.id as) · false) supers).map
        (.node (.object name c.id as) (.object name' d.id bs) false)) :=
  objectRefusal_of_ne hc hd hne _ _ _ as bs

theorem Ladder.not_accepted (h : p.Ladder S) (hp : p.Grown) (hc : p.Has c) (hnot : ¬ S c) (hd : S d)
    (hbs : ∀ b ∈ bs, b.Over p) (fuel : Nat) :
    Keeps (p.Since base) (p.refusalIn fuel (.object name c.id as) (.object name' d.id bs) false).run
      (· ≠ some none) := by
  induction fuel generalizing d name' bs with
  | zero => exact .pure nofun
  | succ fuel ih =>
    rw [refusalIn_object hc (h.has d hd) fun hcd => hnot (hcd ▸ hd)]
    refine keeps_ask (keeps_above hp (h.has d hd) hbs) fun ss hss => ?_
    refine keeps_attempt (keeps_firstAccepted fun s hs => ?_) (fun _ => nofun) fun o ho => .pure ?_
    · obtain ⟨hover, habove⟩ := hss.1 s hs
      obtain ⟨name, k, args, rfl, hk⟩ := h.under_of_above hd (h.named d hd) habove
      exact ih (h.upward d k hd hk) hover.of_object
    · simp_all

/-- Above a class that is above itself there is no end. -/
theorem Ladder.stalls (h : p.Ladder S) (hp : p.Grown) (hc : p.Has c) (hnot : ¬ S c) (hd : S d)
    (hbs : ∀ b ∈ bs, b.Over p) {k : Node} (hk : ReflTransGen p.Under d k) (hcycle : TransGen p.Under k k) (fuel : Nat) :
    Keeps (p.Since base) (p.refusalIn fuel (.object name c.id as) (.object name' d.id bs) false).run
      (· = none) := by
  induction fuel generalizing d name' bs with
  | zero => exact .pure rfl
  | succ fuel ih =>
    rw [refusalIn_object hc (h.has d hd) fun hcd => hnot (hcd ▸ hd)]
    obtain ⟨e, hde, hek⟩ := TransGen.head'_iff.mp (TransGen.trans_right hk hcycle)
    obtain ⟨t, ht, hdenoted⟩ := hde
    refine keeps_ask (keeps_above hp (h.has d hd) hbs) fun ss hss => ?_
    obtain ⟨name₁, args₁, hmem⟩ := hss.2 t ht (h.simple d hd t ht) e hdenoted
    refine keeps_attempt (stalls_firstAccepted (fun s hs => ?_) hmem ?_) (fun _ => rfl) nofun
    · obtain ⟨hover, habove⟩ := hss.1 s hs
      obtain ⟨name, k, args, rfl, hk⟩ := h.under_of_above hd (h.named d hd) habove
      exact h.not_accepted hp hc hnot (h.upward d k hd hk) hover.of_object fuel
    · exact ih (h.upward d e hd ⟨t, ht, hdenoted⟩) (hss.1 _ hmem).1.of_object hek

/-- A class that is not above another is refused when all above that one have been asked. -/
theorem Ladder.acc_next (h : p.Ladder S) (hc : p.Has c) (hnot : ¬ S c) (hd : S d)
    (hends : Acc (fun k c => p.Under c k) d) : Acc p.Next (.object name c.id as, .object name' d.id bs) := by
  induction hends generalizing name' bs with
  | intro d _ ih =>
    have hsame {c' : Node} {n n' : String} {as' bs' : List Ty} (hc' : p.Has c')
        (ht : p.Classed (.object name c.id as) (.object n c'.id as'))
        (hu : p.Classed (.object name' d.id bs) (.object n' c'.id bs')) : False := by
      simp only [Classed, Ty.literalName?, Ty.object.injEq] at ht hu
      apply hnot
      rw [← hc'.eq_of_id hc ht.2.1, hc'.eq_of_id (h.has d hd) hu.2.1]
      exact hd
    refine Acc.intro _ fun q hq => ?_
    generalize ht : Ty.object name c.id as = t at hq
    generalize hu : Ty.object name' d.id bs = u at hq
    cases hq with
    | self => cases hu
    | above hc' hd' hne htc huc hs =>
      subst ht hu
      simp only [Classed, Ty.literalName?, Ty.object.injEq] at htc huc
      obtain ⟨rfl, hcid, rfl⟩ := htc
      obtain ⟨rfl, hdid, rfl⟩ := huc
      obtain rfl := hd'.eq_of_id (h.has d hd) hdid
      obtain ⟨name, k, args, rfl, hk⟩ := h.under_of_above hd (h.named _ hd) hs
      rw [hcid]
      exact ih k hk (h.upward _ k hd hk)
    | argument i hc' htc huc => exact (hsame hc' (ht ▸ htc) (hu ▸ huc)).elim
    | input i hc' htc huc => exact (hsame hc' (ht ▸ htc) (hu ▸ huc)).elim
    | behaviourArgument => cases ht
    | result => cases ht

end

/-! ### Every question -/

/-- From some patience on the question is answered, always alike, when `m` is remembered. -/
def Settles (p : Program) (assignee assigned : Ty) (invariant : Bool) (m : Memo) : Prop :=
  ∃ n o m', ∀ k, n ≤ k → (p.refusalIn k assignee assigned invariant).run.run m = (some o, m')

/-- A class that a question about two types can come to. -/
def Concerns (p : Program) (t u : Ty) (k : Node) : Prop :=
  ∃ c, p.Has c ∧ c.id ∈ p.classesOf t ++ p.classesOf u ∧ ReflTransGen p.Mentions c k

def saysClasses (p : Program) (c : Node) : Bool :=
  (p.superExpressions c).all fun t => p.namesNoBinding t && (p.denoted? t).isSome

/-- No type parameter of the class takes the sides of a comparison for each other. -/
def keepsSides (p : Program) (c : Node) : Bool := (p.typeParameters c).all fun q => q.shape.variance != .input

theorem isSimple_superExpression {c t : Node} (hc : p.Has c) (ht : t ∈ p.superExpressions c)
    (h : p.namesNoBinding t) : p.IsSimple t :=
  isSimple_of_namesNoBinding (hc.superExpression ht).1 (hc.superExpression ht).2 h

theorem Settles.of_acc (hp : p.Grown) (qs : List (Question p)) (ht : t.Over p) (hu : u.Over p)
    (h : Acc p.Next (t, u)) (invariant : Bool) : p.Settles t u invariant (after qs) := by
  obtain ⟨n, o, m', -, -, hn⟩ := succeeds_refusalIn hp h ht hu invariant (after qs) (since_after hp qs)
  exact ⟨n, o, m', hn⟩

theorem Concerns.has (hp : p.Grown) {k : Node} (h : p.Concerns t u k) : p.Has k := by
  obtain ⟨c, hc, -, hck⟩ := h
  exact has_of_path hp.has_of_mentions hc hck

theorem bounded_concerns (hp : p.Grown) (h : ∀ k, p.Concerns t u k → (p.superExpressions k).all p.namesNoBinding) :
    p.Bounded (p.Concerns t u) := by
  refine ⟨⟨fun k hk => hk.has hp, fun k hk s hs => ?_⟩, fun c k hc hk => ?_⟩
  · exact isSimple_superExpression (hk.has hp) hs (all_eq_true.mp (h k hk) s hs)
  · obtain ⟨b, hb, hmem, hbc⟩ := hc
    exact ⟨b, hb, hmem, hbc.tail hk⟩

theorem ladder_under (hp : p.Grown) {d : Node} (hd : p.Has d)
    (h : ∀ k, ReflTransGen p.Under d k → p.saysClasses k) : p.Ladder (ReflTransGen p.Under d) := by
  have hhas (k : Node) := has_of_path (k := k) hp.has_of_under hd
  have hclasses (k : Node) (hk : ReflTransGen p.Under d k) (t : Node) (ht : t ∈ p.superExpressions k) :=
    Bool.and_eq_true_iff.mp (all_eq_true.mp (h k hk) t ht)
  exact
    { has := hhas
      simple := fun k hk t ht => isSimple_superExpression (hhas k hk) ht (hclasses k hk t ht).1
      named := fun k hk t ht => (hclasses k hk t ht).2
      upward := fun _ _ hk hs => hk.tail hs }

/-- Whether a type does for another is settled if the classes they lead to speak of none that leads back,
or if these keep sides and none is above itself. For a class that is not above another it is settled if
and only if no class above that one is above itself. -/
theorem refusal_settles {ss : List Source} (hclean : ∀ s ∈ ss, Diagnostic.hasErrors (s.parse none).remarks = false)
    (hp : p = .ofDocuments (ss.map (·.parse none))) (qs : List (Question p)) (ht : t.Over p) (hu : u.Over p) :
    ((∀ k, p.Concerns t u k → (p.superExpressions k).all p.namesNoBinding = true) →
      (∀ k, p.Concerns t u k → ¬ TransGen p.Mentions k k) ∨
      (∀ k, p.Concerns t u k → p.saysClasses k = true ∧ p.keepsSides k = true ∧ ¬ TransGen p.Under k k) →
      ∀ invariant, p.Settles t u invariant (after qs)) ∧
    ∀ c d name name' as bs, p.Has c → p.Has d → t = .object name c.id as → u = .object name' d.id bs →
      ¬ ReflTransGen p.Under d c → (∀ k, ReflTransGen p.Under d k → p.saysClasses k = true) →
      (p.Settles t u false (after qs) ↔ ∀ k, ReflTransGen p.Under d k → ¬ TransGen p.Under k k) := by
  have hgrown : p.Grown := hp ▸ grown_of_no_errors hclean
  constructor
  · intro hnames hends invariant
    have hbounded := bounded_concerns hgrown hnames
    obtain ⟨n, htn⟩ := exists_among (S := p.Concerns t u) hgrown ht fun c hc hmem =>
      ⟨c, hc, mem_append_left _ hmem, .refl⟩
    obtain ⟨n', hun⟩ := exists_among (S := p.Concerns t u) hgrown hu fun c hc hmem =>
      ⟨c, hc, mem_append_right _ hmem, .refl⟩
    refine .of_acc hgrown qs ht hu ?_ invariant
    rcases hends with hends | hends
    · have hacc (c : Node) (hc : p.Concerns t u c) : Acc (fun k c => p.Mentions c k) c := by
        refine hgrown.acc_of_acyclic hgrown.has_of_mentions (hbounded.has c hc) fun k hk => hends k ?_
        obtain ⟨b, hb, hmem, hbc⟩ := hc
        exact ⟨b, hb, hmem, hbc.trans hk⟩
      exact acc_next_of_below (hbounded.acc_below hacc htn) (hbounded.acc_below hacc hun)
    · have hsided : p.OneSided (p.Concerns t u) :=
        { hbounded with
          sides := fun c hc q hq => by
            simpa using all_eq_true.mp (hends c hc).2.1 q hq
          named := fun c hc s hs => by
            have hclasses := all_eq_true.mp (hends c hc).1 s hs
            exact (Bool.and_eq_true_iff.mp hclasses).2
          ends := fun c hc => by
            refine hgrown.acc_of_acyclic hgrown.has_of_under (hbounded.has c hc) fun k hk => (hends k ?_).2.2
            induction hk with
            | refl => exact hc
            | tail _ hs ih => exact hbounded.closed _ _ ih (hs.mentions (hbounded.has _ ih)) }
      exact hsided.acc_next (htn.mono (Nat.le_max_left n n')) (hun.mono (Nat.le_max_right n n'))
  · rintro c d name name' as bs hc hd rfl rfl hnot hclasses
    have hladder := ladder_under hgrown hd hclasses
    constructor
    · rintro ⟨n, o, m', hn⟩ k hk hcycle
      have hnone :
          ((p.refusalIn n (.object name c.id as) (.object name' d.id bs) false).run.run (after qs)).1 = none :=
        (hladder.stalls hgrown hc hnot .refl hu.of_object hk hcycle n (after qs) (since_after hgrown qs)).1
      rw [hn n (Nat.le_refl n)] at hnone
      cases hnone
    · intro hacyclic
      refine .of_acc hgrown qs ht hu (hladder.acc_next hc hnot .refl ?_) false
      exact hgrown.acc_of_acyclic hgrown.has_of_under hd hacyclic

def wells : List Source :=
  [.ofString .module "test:wells.loa"
    "class Water { } class Well<in T> { } class Spring { is Water. is Well<Water>. }"]

def loops : List Source :=
  [.ofString .module "test:loops.loa" "class Egg { is Hen. } class Hen { is Egg. } class Fox { }"]

def wellProgram : Program := .ofDocuments (wells.map (·.parse none))

def loopProgram : Program := .ofDocuments (loops.map (·.parse none))

theorem refusal_settles_wells : ((wellProgram.matching Shape.isClass).length = 3 ∧
      ∀ c ∈ wellProgram.matching Shape.isClass, ∀ d ∈ wellProgram.matching Shape.isClass,
      ∀ e ∈ wellProgram.matching Shape.isClass, ∀ invariant, ∀ qs : List (Question wellProgram),
        wellProgram.Settles (.object "" c.id [.object "" d.id []]) (.object "" e.id []) invariant (after qs)) ∧
    ∃ egg hen fox, loopProgram.matching Shape.isClass = [egg, hen, fox] ∧ TransGen loopProgram.Under egg egg ∧
      ∀ qs : List (Question loopProgram),
        ¬ loopProgram.Settles (.object "Fox" fox.id []) (.object "Egg" egg.id []) false (after qs) := by
  constructor
  · have hclean : ∀ s ∈ wells, Diagnostic.hasErrors (s.parse none).remarks = false := by decide +kernel
    have hgrown : wellProgram.Grown := grown_of_no_errors hclean
    have hnames : ∀ k ∈ wellProgram.all, (wellProgram.superExpressions k).all wellProgram.namesNoBinding = true := by
      decide +kernel
    -- Classes speak of classes that are declared before them.
    have hbefore : ∀ k ∈ wellProgram.all, ∀ t ∈ wellProgram.superExpressions k, ∀ c ∈ wellProgram.named t,
        c.id < k.id := by
      decide +kernel
    refine ⟨by decide +kernel, fun c hc d hd e he invariant qs => ?_⟩
    have hover (c : Node) (hc : c ∈ wellProgram.matching Shape.isClass) (args : List Ty)
        (ha : ∀ t ∈ args, t.Over wellProgram) : (Ty.object "" c.id args).Over wellProgram :=
          .object (has_of_mem_matching hgrown hc).1 ha
    have hcd := hover c hc [.object "" d.id []] fun t ht => mem_singleton.mp ht ▸ hover d hd [] nofun
    refine (refusal_settles hclean rfl qs hcd (hover e he [] nofun)).1 (fun k hk => ?_)
      (.inl fun k hk => ?_) invariant
    · exact hnames k (hgrown.sown.mem_all.mpr (hk.has hgrown))
    · refine hgrown.acyclic_of_before hgrown.has_of_mentions ?_ (hk.has hgrown)
      rintro c hc k ⟨t, ht, hk⟩
      exact hbefore c hc t ht k hk
  · have hclean : ∀ s ∈ loops, Diagnostic.hasErrors (s.parse none).remarks = false := by decide +kernel
    have hgrown : loopProgram.Grown := grown_of_no_errors hclean
    have hclasses : ∀ k ∈ loopProgram.all, loopProgram.saysClasses k = true := by decide +kernel
    -- No class is under `Fox`, nor under one that is declared behind it.
    have hfacts : ∃ egg ∈ loopProgram.matching Shape.isClass, ∃ hen ∈ loopProgram.matching Shape.isClass,
        ∃ fox ∈ loopProgram.matching Shape.isClass, loopProgram.matching Shape.isClass = [egg, hen, fox] ∧
        (∃ t ∈ loopProgram.superExpressions egg, loopProgram.denoted? t = some hen) ∧
        (∃ t ∈ loopProgram.superExpressions hen, loopProgram.denoted? t = some egg) ∧ egg.id < fox.id ∧
        ∀ c ∈ loopProgram.all, ∀ t ∈ loopProgram.superExpressions c, ∀ d ∈ loopProgram.denoted? t, d.id < fox.id := by
      decide +kernel
    obtain ⟨egg, hegg, hen, -, fox, hfox, hcs, hegghen, hhenegg, hlt, hbefore⟩ := hfacts
    have hcycle : TransGen loopProgram.Under egg egg := .tail (.single hegghen) hhenegg
    have hegg := (has_of_mem_matching hgrown hegg).1
    have hfox := (has_of_mem_matching hgrown hfox).1
    have habove (k : Node) (hk : ReflTransGen loopProgram.Under egg k) : loopProgram.Has k :=
      has_of_path hgrown.has_of_under hegg hk
    have hover {name : String} {c : Node} (hc : loopProgram.Has c) : (Ty.object name c.id []).Over loopProgram :=
      .object hc nofun
    have hnot : ¬ ReflTransGen loopProgram.Under egg fox := by
      intro h
      obtain rfl | ⟨c, hc, t, ht, hd⟩ := h.cases_tail
      · exact Nat.lt_irrefl _ hlt
      · exact Nat.lt_irrefl _ (hbefore c (hgrown.sown.mem_all.mpr (habove c hc)) t ht fox hd)
    refine ⟨egg, hen, fox, hcs, hcycle, fun qs hsettles => ?_⟩
    refine ((refusal_settles hclean rfl qs (hover hfox) (hover hegg)).2 fox egg "Fox" "Egg" [] [] hfox hegg rfl rfl
      hnot fun k hk => ?_).mp hsettles egg .refl hcycle
    exact hclasses k (hgrown.sown.mem_all.mpr (habove k hk))

end Program

end Parlance
