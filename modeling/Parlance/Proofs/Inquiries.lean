import Parlance.Check
import Parlance.Proofs.Questions
/-!
What the checks ask, gone through once for all that can be said of a question and its answers.
-/
open List

namespace Parlance

/-! ### Remarks and how grave they are -/

namespace Diagnostic

def AllErrors (ds : List Diagnostic) : Prop := ∀ d ∈ ds, d.isError

theorem AllErrors.nil : AllErrors [] := nofun

theorem AllErrors.append {ds es : List Diagnostic} (hd : AllErrors ds) (he : AllErrors es) :
    AllErrors (ds ++ es) := fun d h => (mem_append.mp h).elim (hd d) (he d)

theorem AllErrors.filterMap {α : Type} {f : α → Option Diagnostic} {as : List α}
    (h : ∀ a ∈ as, ∀ d ∈ f a, d.isError) : AllErrors (as.filterMap f) := by
  intro d hd
  grind

theorem AllErrors.flatMap {α : Type} {f : α → List Diagnostic} {as : List α}
    (h : ∀ a ∈ as, AllErrors (f a)) : AllErrors (as.flatMap f) := by
  intro d hd
  obtain ⟨a, ha, hfa⟩ := mem_flatMap.mp hd
  exact h a ha d hfa

end Diagnostic

theorem Ty.Over.of_object {p : Program} {name : String} {id : Nat} {args : List Ty}
    (h : (Ty.object name id args).Over p) : ∀ a ∈ args, a.Over p := by
  cases h with
  | object _ ha => exact ha

namespace Program

variable {p : Program} {base : Memo} {t u : Ty} {c d n : Node}

/-! ### Questions one after another -/

/-- Something that can be said of questions and their answers. Where it is `sound`, what is asked about are
nodes of the program and types over it, and so are the answers. -/
structure Walk (p : Program) (sound : Prop) (K : ∀ {α : Type}, Typing α → (α → Prop) → Prop) : Prop where
  grown : sound → p.Grown
  pure {α : Type} {a : α} {Q : α → Prop} (h : Q a) : K (Pure.pure a) Q
  bind {α β : Type} {x : Typing α} {f : α → Typing β} {Q : α → Prop} {R : β → Prop} (hx : K x Q)
    (hf : ∀ a, Q a → K (f a) R) : K (x >>= f) R
  expression {n : Node} (h : sound → p.Has n ∧ n.shape.isExpression) :
    K (p.expressionType n) fun t => sound → t.Over p
  declaration {n : Node} (h : sound → p.Has n ∧ n.shape.isTypeExpression = false) :
    K (p.declarationType n) fun t => sound → t.Over p
  typeExpression {n : Node} (h : sound → p.Has n ∧ n.shape.isTypeExpression) :
    K (p.typeExpressionType n) fun t => sound → t.Over p
  standard (name : String) : K (p.standardType name) fun t => sound → t.Over p
  behaviours {t : Ty} (h : sound → t.Over p) : K (p.behaviours t) fun bs => sound → ∀ b ∈ bs, b.Over p
  message {n : Node} (h : sound → p.Has n) : K (p.messageBehaviour n) fun o => sound → ∀ b ∈ o, b.Over p
  uses (k : NameKind) : K (p.uses k) fun _ => True
  usage {k : NameKind} {n s : Node} (hn : n ∈ p.matching k.refers) (hs : p.symbol? n = some s) :
    K (p.usage s) fun _ => True

/-! ### What one type asks of another -/

theorem refusalStep_cases (p : Program) (t u : Ty) (invariant : Bool) :
    (∃ o, ∀ ask, refusalStep p ask t u invariant = Pure.pure o) ∨
    (∃ v, u = .self v ∧ ∀ ask, refusalStep p ask t u invariant = (do
      return (← ask t v invariant).map fun r => .node t u invariant [r])) ∨ ∀ ask, refusalStep p ask t u invariant = (do
      let t' ← p.literalClass t
      let u' ← p.literalClass u
      classedRefusal p ask t' u' invariant) := by
  cases t <;> cases u <;>
    first
    | exact .inl ⟨_, fun _ => rfl⟩
    | exact .inr (.inl ⟨_, rfl, fun _ => rfl⟩)
    | exact .inr (.inr fun _ => rfl)

theorem classedRefusal_cases (p : Program) (t u : Ty) (invariant : Bool) :
    (∃ o, ∀ ask, classedRefusal p ask t u invariant = Pure.pure o) ∨
    (∃ n i as m j bs, t = .object n i as ∧ u = .object m j bs ∧
      ∀ ask, classedRefusal p ask t u invariant = objectRefusal p ask t u i j as bs invariant) ∨
    ∃ b b' : Behaviour, t = b.type ∧ u = b'.type ∧
      ∀ ask, classedRefusal p ask t u invariant = behaviourRefusal ask b b' invariant := by
  cases t <;> cases u <;>
    first
    | exact .inl ⟨_, fun _ => rfl⟩
    | exact .inr (.inl ⟨_, _, _, _, _, _, rfl, rfl, fun _ => rfl⟩)
    | exact .inr (.inr ⟨⟨_, _, _, _, _, _⟩, ⟨_, _, _, _, _, _⟩, rfl, rfl, fun _ => rfl⟩)

theorem objectRefusal_of_ne (hc : p.Has c) (hd : p.Has d) (hne : c ≠ d) (ask : Inquiry) (t u : Ty)
    (as bs : List Ty) : objectRefusal p ask t u c.id d.id as bs false = (do
      let supers ← p.superTypes d.id bs
      return (← firstAccepted (ask t · false) supers).map (.node t u false)) := by
  have hid := hc.bne_id hd hne
  simp only [objectRefusal, hc.at_, hd.at_, hid, if_true, Bool.false_eq_true, if_false]

theorem objectRefusal_cases (hc : p.Has c) (hd : p.Has d) (t u : Ty) (as bs : List Ty) (invariant : Bool) :
    (∃ o, ∀ ask, objectRefusal p ask t u c.id d.id as bs invariant = Pure.pure o) ∨
    (c ≠ d ∧ ∀ ask, objectRefusal p ask t u c.id d.id as bs invariant = (do
      let supers ← p.superTypes d.id bs
      return (← firstAccepted (ask t · false) supers).map (.node t u false))) ∨
    (c = d ∧ ∀ ask, objectRefusal p ask t u c.id d.id as bs invariant = (do
      let issues ← ((p.typeParameters c).zipIdx).filterMapM fun e =>
        argumentRefusal ask e.1.shape.variance (Ty.argument as e.2) (Ty.argument bs e.2)
      return if issues.isEmpty then none else some (.node t u invariant issues))) := by
  by_cases hne : c = d
  · subst hne
    exact .inr (.inr ⟨rfl, fun ask => by simp only [objectRefusal, hc.at_, bne_self_eq_false,
      Bool.false_eq_true, if_false]⟩)
  · cases invariant with
    | true =>
      have hid := hc.bne_id hd hne
      exact .inl ⟨_, fun ask => by simp only [objectRefusal, hc.at_, hd.at_, hid, if_true]; rfl⟩
    | false => grind [objectRefusal_of_ne]

namespace Walk

variable {sound : Prop} {K : ∀ {α : Type}, Typing α → (α → Prop) → Prop} (w : p.Walk sound K)

include w

section

variable {α β : Type} {x : Typing α} {Q : α → Prop} {as : List α}

theorem mono {R : α → Prop} (hx : K x Q) (h : ∀ a, Q a → R a) : K x R := by
  rw [← bind_pure x]
  exact w.bind hx fun a ha => w.pure (h a ha)

theorem asked (hx : K x Q) (f : α → β) : K (x >>= fun a => Pure.pure (f a)) fun _ => True :=
  w.bind hx fun _ _ => w.pure trivial

theorem mapM {f : α → Typing β} {S : β → Prop} (h : ∀ a ∈ as, K (f a) S) : K (as.mapM f) fun bs => ∀ b ∈ bs, S b := by
  induction as with
  | nil =>
    rw [mapM_nil]
    exact w.pure nofun
  | cons a as ih =>
    rw [mapM_cons]
    exact w.bind (h a mem_cons_self) fun b hb => w.bind (ih fun c hc => h c (.tail a hc)) fun bs hbs =>
      w.pure (forall_mem_cons.mpr ⟨hb, hbs⟩)

theorem filterMapM {f : α → Typing (Option β)} {S : β → Prop}
    (h : ∀ a ∈ as, K (f a) fun o => ∀ b ∈ o, S b) : K (as.filterMapM f) fun bs => ∀ b ∈ bs, S b := by
  induction as with
  | nil =>
    rw [filterMapM_nil]
    exact w.pure nofun
  | cons a as ih =>
    rw [filterMapM_cons]
    refine w.bind (h a mem_cons_self) fun o ho => ?_
    have hrest := ih fun c hc => h c (.tail a hc)
    cases o with
    | none => exact hrest
    | some b => exact w.bind hrest fun bs hbs => w.pure (forall_mem_cons.mpr ⟨ho b rfl, hbs⟩)

theorem ask {f : α → Attempt β} (hx : K x Q)
    (hf : ∀ a, Q a → K (f a).run fun _ => True) : K (liftM x >>= f : Attempt β).run fun _ => True := w.bind hx hf

theorem attempt {x : Attempt α} {f : α → Attempt β} (hx : K x.run fun _ => True)
    (hf : ∀ a, K (f a).run fun _ => True) : K (x >>= f).run fun _ => True := by
  rw [OptionT.run_bind]
  refine w.bind hx fun o _ => ?_
  cases o with
  | none => exact w.pure trivial
  | some a => exact hf a

theorem attempts {f : α → Attempt (Option β)} (h : ∀ a ∈ as, K (f a).run fun _ => True) :
    K (as.filterMapM f).run fun _ => True := by
  induction as with
  | nil =>
    rw [filterMapM_nil]
    exact w.pure trivial
  | cons a as ih =>
    rw [filterMapM_cons]
    refine w.attempt (h a mem_cons_self) fun o => ?_
    have hrest := ih fun c hc => h c (.tail a hc)
    cases o with
    | none => exact hrest
    | some b => exact w.attempt hrest fun _ => w.pure trivial

theorem firstAccepted {check : Ty → Attempt (Option Refusal)} {ts : List Ty}
    (h : ∀ t ∈ ts, K (check t).run fun _ => True) : K (Program.firstAccepted check ts).run fun _ => True := by
  induction ts with
  | nil => exact w.pure trivial
  | cons t ts ih =>
    unfold Program.firstAccepted
    refine w.attempt (h t mem_cons_self) fun o => ?_
    split
    · exact w.pure trivial
    · exact w.attempt (ih fun u hu => h u (.tail t hu)) fun _ => w.pure trivial

end

/-! ### Types above, and types that fit -/

theorem superTypes {id : Nat} {args : List Ty} (hid : sound → ∀ c, p.node? id = some c → p.Has c)
    (hargs : sound → ∀ t ∈ args, t.Over p) : K (p.superTypes id args) fun ts => ∀ t ∈ ts, sound → t.Over p := by
  unfold Program.superTypes
  split
  · exact w.pure (by simp)
  · rename_i c hc
    refine w.filterMapM fun t ht => w.bind (w.typeExpression fun s => (hid s c hc).superExpression ht) fun u hu => ?_
    split
    · rename_i hsub
      refine w.pure fun v hv s => ?_
      cases hv
      exact hsub ▸ (hu s).subst (over_substitution (hargs s) (some c))
    · exact w.pure (by simp)

theorem literalClass (ht : sound → t.Over p) : K (p.literalClass t) fun t => sound → t.Over p := by
  unfold Program.literalClass
  split
  · exact w.standard _
  · exact w.standard _
  · exact w.standard _
  · exact w.pure ht

section

variable {ask : Inquiry}
  (hask : ∀ {t u}, (sound → t.Over p) → (sound → u.Over p) → ∀ i, K (ask t u i).run fun _ => True)

include hask

theorem objectRefusal {name name' : String} {i j : Nat} {as bs : List Ty} (ht : sound → (Ty.object name i as).Over p)
    (hu : sound → (Ty.object name' j bs).Over p) (invariant : Bool) :
    K (objectRefusal p ask (.object name i as) (.object name' j bs) i j as bs invariant).run fun _ => True := by
  unfold Program.objectRefusal
  split
  · split
    · split
      · exact w.pure trivial
      · refine w.ask (w.superTypes (fun s c hc => ?_) fun s => (hu s).of_object) fun supers hsupers =>
          w.attempt (w.firstAccepted fun t h => hask ht (hsupers t h) false) fun _ => w.pure trivial
        cases hu s with
        | object hd => exact Option.some.inj (hd.at_.symm.trans hc) ▸ hd
    · refine w.attempt (w.attempts fun e _ => ?_) fun _ => w.pure trivial
      have ha : sound → (Ty.argument as e.2).Over p := fun s => .argument (ht s).of_object e.2
      have hb : sound → (Ty.argument bs e.2).Over p := fun s => .argument (hu s).of_object e.2
      dsimp only [argumentRefusal]
      grind
  · exact w.pure trivial

theorem behaviourRefusal {b b' : Behaviour} (hb : sound → b.type.Over p) (hb' : sound → b'.type.Over p)
    (invariant : Bool) : K (behaviourRefusal ask b b' invariant).run fun _ => True := by
  have hparts {b : Behaviour} (h : b.type.Over p) : (∀ a ∈ b.arguments, a.Over p) ∧ b.result.Over p := by
    cases h with
    | behaviour _ ha hr => exact ⟨ha, hr⟩
  unfold Program.behaviourRefusal
  split
  · exact w.pure trivial
  · refine w.attempt (w.attempts fun e he => ?_) fun _ => w.attempt ?_ fun _ => w.pure trivial
    · exact hask (fun s => .argument (hparts (hb' s)).1 e.2)
        (fun s => (hparts (hb s)).1 e.1 (fst_mem_of_mem_zipIdx he)) false
    · exact hask (fun s => (hparts (hb s)).2) (fun s => (hparts (hb' s)).2) false

theorem refusalStep (ht : sound → t.Over p) (hu : sound → u.Over p) (invariant : Bool) :
    K (refusalStep p ask t u invariant).run fun _ => True := by
  obtain ⟨o, h⟩ | ⟨v, rfl, h⟩ | h := refusalStep_cases p t u invariant
  · rw [h]
    exact w.pure trivial
  · rw [h]
    refine w.attempt (hask ht (fun s => ?_) invariant) fun _ => w.pure trivial
    cases hu s with
    | self hv => exact hv
  · rw [h]
    refine w.ask (w.literalClass ht) fun t' ht' => w.ask (w.literalClass hu) fun u' hu' => ?_
    obtain ⟨o, h⟩ | ⟨n, i, as, m, j, bs, rfl, rfl, h⟩ | ⟨b, b', rfl, rfl, h⟩ :=
      classedRefusal_cases p t' u' invariant
    · rw [h]
      exact w.pure trivial
    · rw [h]
      exact w.objectRefusal hask ht' hu' invariant
    · rw [h]
      exact w.behaviourRefusal hask ht' hu' invariant

end

theorem refusalIn (fuel : Nat) (ht : sound → t.Over p) (hu : sound → u.Over p) (invariant : Bool) :
    K (p.refusalIn fuel t u invariant).run fun _ => True := by
  induction fuel generalizing t u invariant with
  | zero => exact w.pure trivial
  | succ fuel ih => exact w.refusalStep ih ht hu invariant

theorem refusal (ht : sound → t.Over p) (hu : sound → u.Over p) (invariant : Bool) :
    K (p.refusal t u invariant) fun _ => True :=
  w.asked (w.refusalIn _ ht hu invariant) _

end Walk

/-! ### What can be asked about -/

theorem has_of_mem_matching (hp : p.Grown) {q : Shape → Bool} (h : n ∈ p.matching q) : p.Has n ∧ q n.shape :=
  ⟨hp.sown.mem_all.mp (mem_filter.mp h).1, (mem_filter.mp h).2⟩

end Program

/-! ### Checks -/

namespace Check

open Diagnostic

theorem isError_report {problem : Problem} (h : problem.code.severity = .error) (span : Span) :
    (problem.report span).isError :=
  beq_iff_eq.mpr h

theorem allErrors_duplicatesAmong (p : Program) (declarations : List Node) (reported : List Nat) :
    AllErrors (duplicatesAmong p declarations reported).2 := by
  refine foldlRecOn _ _ (motive := fun acc : List Nat × List Diagnostic => AllErrors acc.2) .nil fun acc hacc g _ => ?_
  dsimp only
  split
  · exact hacc
  · refine foldlRecOn _ _ (motive := fun acc : List Nat × List Diagnostic => AllErrors acc.2)
      hacc fun acc hacc s _ => ?_
    split
    · exact hacc
    · exact hacc.append (forall_mem_singleton.mpr (isError_report rfl _))

theorem allErrors_duplicates (p : Program) : AllErrors (duplicates p) :=
  foldlRecOn _ _ (motive := fun acc : List Nat × List Diagnostic => AllErrors acc.2) .nil fun acc hacc ds _ =>
    hacc.append (allErrors_duplicatesAmong p ds acc.1)

theorem allErrors_imports (p : Program) : AllErrors (imports p) := by
  refine .filterMap fun i _ d hd => ?_
  obtain ⟨q, -, hd⟩ := Option.bind_eq_some_iff.mp hd
  split at hd
  · exact Option.some.inj hd ▸ isError_report rfl _
  · split at hd
    · cases hd
    · exact Option.some.inj hd ▸ isError_report rfl _

theorem allErrors_initializers (p : Program) : AllErrors (initializers p) := by
  refine .flatMap fun c _ => .flatMap fun n _ => ?_
  have hunknown : AllErrors (((p.assignments n).filter fun a =>
      !(distinct ((p.memberVariables c).filterMap p.nameOf?)).contains a.name).map fun a =>
        (Problem.notAVariable a.name ((p.nameOf? c).getD "")).report a.keyword.span) := by
    intro d hd
    obtain ⟨a, -, rfl⟩ := mem_map.mp hd
    exact isError_report rfl _
  unfold initializerProblems
  simp only
  split
  · exact hunknown
  · exact hunknown.append (forall_mem_singleton.mpr (isError_report rfl _))

theorem allErrors_typeArgumentCounts (p : Program) : AllErrors (typeArgumentCounts p) := by
  refine .filterMap fun t _ d hd => ?_
  obtain ⟨c, -, hd⟩ := Option.bind_eq_some_iff.mp hd
  obtain ⟨-, -, hd⟩ := Option.bind_eq_some_iff.mp hd
  obtain ⟨-, -, hd⟩ := Option.bind_eq_some_iff.mp hd
  exact Option.some.inj hd ▸ isError_report rfl _

theorem severity_boundsProblem? {l : Literal} {problem : Problem} (h : boundsProblem? l = some problem) :
    problem.code.severity = .error := by
  unfold boundsProblem? at h
  split at h
  · cases h
    rfl
  · obtain ⟨reason, -, rfl⟩ := Option.map_eq_some_iff.mp h
    rfl

/-- The checks made before the tenth, and those made after it. -/
def first : List Check := all.take 9

def last : List Check := all.drop 10

end Check

namespace Program.Walk

open Diagnostic

open Check (isError_report)

variable {p : Program} {t u : Ty} {n : Node} {sound : Prop} {K : ∀ {α : Type}, Typing α → (α → Prop) → Prop}
  (w : p.Walk sound K)

include w

theorem has {q : Shape → Bool} (h : n ∈ p.matching q) (s : sound) : p.Has n := (has_of_mem_matching (w.grown s) h).1

theorem flatMapM {α β : Type} {f : α → Typing (List β)} {as : List α} {S : β → Prop}
    (h : ∀ a ∈ as, K (f a) fun bs => ∀ b ∈ bs, S b) : K (return (← as.mapM f).flatten) fun bs => ∀ b ∈ bs, S b := by
  refine w.bind (w.mapM h) fun bss hbss => w.pure fun b hb => ?_
  obtain ⟨bs, hbs, hb⟩ := mem_flatten.mp hb
  exact hbss bs hbs b hb

theorem undefined (k : NameKind) {problem : String → Problem} (h : ∀ name, (problem name).code.severity = .error) :
    K (Check.undefined p k problem) AllErrors := by
  refine w.filterMapM fun s hs => ?_
  obtain ⟨n, hn, hs⟩ := mem_filterMap.mp hs
  refine w.bind (w.usage hn hs) fun o _ => ?_
  split
  · exact w.pure nofun
  · exact w.pure fun d hd => Option.some.inj hd ▸ isError_report (h _) _

theorem undefinedBehaviours : K (Check.undefinedBehaviours p) AllErrors := by
  refine w.filterMapM fun n hn => ?_
  split
  · exact w.pure (by simp)
  · rename_i r hr
    refine w.bind (w.expression fun s => (w.grown s).messageReceiver (w.has hn s) hr) fun t ht => ?_
    split
    · exact w.pure (by simp)
    split
    · exact w.pure (by simp)
    refine w.bind (w.asked (w.behaviours ht) _) fun o _ => ?_
    split
    · exact w.pure (by simp)
    · exact w.pure fun d hd => Option.some.inj hd ▸ isError_report rfl _

theorem misfit (ht : sound → t.Over p) (hn : sound → p.Has n ∧ n.shape.isExpression) :
    K (Check.misfit p t n) fun o => ∀ d ∈ o, d.isError := by
  refine w.bind (w.expression hn) fun u hu => w.bind (w.refusal ht hu false) fun o _ => w.pure fun d hd => ?_
  obtain ⟨r, -, rfl⟩ := Option.map_eq_some_iff.mp hd
  exact isError_report rfl _

theorem resultMisfits : K (Check.resultMisfits p) AllErrors := by
  refine w.filterMapM fun m hm => ?_
  split
  · rename_i r e hr he
    refine w.bind ?_ fun t ht => w.misfit ht fun s => has_body (w.has hm s) he
    unfold returnType
    split
    · rename_i x hx
      exact w.typeExpression fun s => ⟨(has_returnType (w.has hm s) hr).part hx, (Forest.part?_mem hx).2⟩
    · exact w.pure fun _ => .unknown
  · exact w.pure nofun

theorem argumentMisfits : K (Check.argumentMisfits p) AllErrors := by
  refine w.flatMapM fun n hn => w.bind (w.message (w.has hn)) fun o ho => ?_
  split
  · exact w.pure nofun
  · rename_i b
    refine w.filterMapM fun e he => ?_
    obtain ⟨harg, hvalue⟩ := of_mem_zip he
    refine w.misfit (fun s => (ho s b rfl).arguments _ harg) fun s => ?_
    obtain ⟨hehas, heshape, -⟩ := (w.has hn s).argument hvalue
    exact ⟨hehas, heshape⟩

theorem bindingMisfits : K (Check.bindingMisfits p) AllErrors := by
  refine w.filterMapM fun n hn => ?_
  split
  · exact w.pure (by simp)
  · rename_i t ht
    refine w.bind (w.typeExpression fun s => ⟨(w.has hn s).part ht, (Forest.part?_mem ht).2⟩) fun u hu => ?_
    split
    · exact w.pure (by simp)
    · rename_i e he
      exact w.misfit hu fun s => ⟨(w.has hn s).part he, (Forest.part?_mem he).2⟩

theorem variableMisfits : K (Check.variableMisfits p) AllErrors := by
  refine w.flatMapM fun n hn => w.filterMapM fun a ha => ?_
  split
  · exact w.pure (by simp)
  · rename_i v hv
    refine w.bind (w.declaration fun s => ?_) fun t ht => w.misfit ht fun s => ?_
    · exact (w.grown s).memberVariable (w.has hn s) (mem_reverse.mp (mem_of_find?_eq_some hv))
    · obtain ⟨hvalue, hshape, -⟩ := (w.has hn s).assignment ha
      exact ⟨hvalue, hshape⟩

theorem inheritFaults (ht : sound → t.Over p) (hu : sound → u.Over p) (htp : t.IsPlain) (hup : u.IsPlain) :
    K (Check.inheritFaults p t u) fun _ => True := by
  refine w.bind (w.behaviours fun s => .self (ht s) htp) fun own hown => ?_
  refine w.bind (w.behaviours fun s => .self (hu s) hup) fun bs hbs => ?_
  refine w.mono (w.filterMapM fun b hb => (?_ : K _ fun o => ∀ f ∈ o, True)) fun _ _ => trivial
  dsimp only
  split
  · exact w.pure fun _ _ => trivial
  · rename_i got hgot
    have hgot s := hown s got (mem_of_find?_eq_some hgot)
    split
    · exact w.pure fun _ _ => trivial
    · exact w.bind (w.refusal (fun s => .behaviour (hu s) (hbs s b hb).arguments (hbs s b hb).result)
        (fun s => .behaviour (ht s) (hgot s).arguments (hgot s).result) false) fun _ _ => w.pure fun _ _ => trivial

theorem inherits : K (Check.inherits p) AllErrors := by
  refine w.flatMapM fun c hc => w.bind (w.declaration fun s =>
    ⟨w.has hc s, isTypeExpression_of_isClass (mem_filter.mp hc).2⟩) fun t ht => ?_
  split
  · refine w.filterMapM fun e he => w.bind (w.typeExpression fun s => (w.has hc s).superExpression he) fun u hu => ?_
    split
    · split
      · exact w.pure nofun
      refine w.bind (w.inheritFaults ht hu (.inr rfl) (.inr rfl)) fun faults _ => ?_
      split
      · exact w.pure nofun
      · exact w.pure fun d hd => Option.some.inj hd ▸ isError_report rfl _
    · exact w.pure nofun
  · exact w.pure nofun

theorem variance : K (Check.variance p) AllErrors := by
  refine w.flatMapM fun t _ => ?_
  dsimp only
  split
  · refine w.bind (w.asked (w.uses .type) _) fun refs _ => w.pure fun d hd => ?_
    obtain ⟨r, -, rfl⟩ := mem_map.mp hd
    exact isError_report rfl _
  · exact w.pure nofun

theorem literals : K (Check.literals p) fun _ => True := by
  refine w.mono (w.filterMapM fun n hn => (?_ : K _ fun o => ∀ l ∈ o, True)) fun _ _ => trivial
  refine w.bind (w.expression fun s => ⟨w.has hn s, ?_⟩) fun t _ => ?_
  · have hshape := (mem_filter.mp hn).2
    cases hs : n.shape <;> rw [hs] at hshape <;> cases hshape <;> rfl
  · dsimp only
    split <;> exact w.pure fun _ _ => trivial

theorem bounds : K (Check.bounds p) AllErrors := by
  refine w.bind w.literals fun ls _ => w.pure (.filterMap fun l _ d hd => ?_)
  obtain ⟨problem, hp, rfl⟩ := Option.map_eq_some_iff.mp hd
  exact isError_report (Check.severity_boundsProblem? hp) _

theorem precision : K (Check.precision p) fun ds => ∀ d ∈ ds, d.isError = false := by
  refine w.bind w.literals fun ls _ => w.pure fun d hd => ?_
  obtain ⟨l, -, hd⟩ := mem_filterMap.mp hd
  unfold Check.imprecision? at hd
  obtain ⟨_, -, hd⟩ := Option.bind_eq_some_iff.mp hd
  obtain ⟨-, -, hd⟩ := Option.bind_eq_some_iff.mp hd
  obtain ⟨-, -, hd⟩ := Option.bind_eq_some_iff.mp hd
  split at hd
  · exact Option.some.inj hd ▸ rfl
  · exact Option.some.inj hd ▸ rfl

theorem privateAccess : K (Check.privateAccess p) AllErrors := by
  refine w.filterMapM fun n hn => w.bind (w.asked (w.message (w.has hn)) _) fun o _ => ?_
  split
  · exact w.pure (by simp)
  split
  · exact w.pure (by simp)
  · refine w.pure fun d hd => ?_
    obtain ⟨name, -, hd⟩ := Option.bind_eq_some_iff.mp hd
    exact Option.some.inj hd ▸ isError_report rfl _

theorem first : ∀ c ∈ Check.first, K (c.run p) AllErrors := by
  refine forall_mem_cons.mpr ⟨w.pure (Check.allErrors_duplicates p), ?_⟩
  refine forall_mem_cons.mpr ⟨w.undefined _ fun _ => rfl, forall_mem_cons.mpr ⟨w.undefined _ fun _ => rfl, ?_⟩⟩
  refine forall_mem_cons.mpr ⟨w.undefinedBehaviours, ?_⟩
  refine forall_mem_cons.mpr ⟨w.pure (Check.allErrors_imports p), forall_mem_cons.mpr ⟨w.inherits, ?_⟩⟩
  refine forall_mem_cons.mpr ⟨w.bind w.resultMisfits fun a ha => w.bind w.argumentMisfits fun b hb =>
    w.bind w.bindingMisfits fun c hc => w.bind w.variableMisfits fun d hd =>
      w.pure (((AllErrors.append ha hb).append hc).append hd), ?_⟩
  exact forall_mem_cons.mpr ⟨w.variance, forall_mem_singleton.mpr w.bounds⟩

theorem last : ∀ c ∈ Check.last, K (c.run p) AllErrors := by
  refine forall_mem_cons.mpr ⟨w.privateAccess, ?_⟩
  exact forall_mem_cons.mpr ⟨w.pure (Check.allErrors_initializers p),
    forall_mem_singleton.mpr (w.pure (Check.allErrors_typeArgumentCounts p))⟩

theorem runAll : K (Check.runAll Check.all p) fun _ => True := by
  have hall : Check.all = Check.first ++ ([⟨"imprecise-float-literal", Check.precision⟩] ++ Check.last) := rfl
  refine w.bind (w.mapM (S := fun _ => True) fun c hc => ?_) fun _ _ => w.pure trivial
  rw [hall] at hc
  rcases mem_append.mp hc with hc | hc
  · exact w.mono (w.first c hc) fun _ _ => trivial
  · rcases mem_append.mp hc with hc | hc
    · rw [mem_singleton.mp hc]
      exact w.mono w.precision fun _ _ => trivial
    · exact w.mono (w.last c hc) fun _ _ => trivial

end Program.Walk

/-! ### References -/

namespace Program

variable {p : Program} {base : Memo} {t u : Ty} {d n : Node} {α : Type}

/-- A question whose answer does not matter. -/
def Asks {α : Type} (p : Program) (x : Typing α) : Prop := ∀ base, Keeps (p.Since base) x fun _ => True

theorem Asks.of {x : Typing α} {Q : α → Prop} (h : ∀ base, Keeps (p.Since base) x Q) : p.Asks x :=
  fun base => (h base).mono fun _ _ => trivial

theorem Asks.pure (a : α) : p.Asks (Pure.pure a) := fun _ => .pure trivial

theorem Asks.bind {β : Type} {x : Typing α} {f : α → Typing β} (hx : p.Asks x) (hf : ∀ a, p.Asks (f a)) :
    p.Asks (x >>= f) :=
  fun base => (hx base).bind fun a _ => hf a base

theorem asks_modify {f : Memo → Memo} (hf : ∀ m, (f m).types = m.types ∧ (f m).behaviours = m.behaviours) :
    p.Asks (modify f : Typing Unit) := by
  intro base m hm
  obtain ⟨ht, hb⟩ := hf m
  refine ⟨trivial, ?_⟩
  show p.Since base (f m)
  constructor
  · rw [ht]; exact hm.types_size
  · rw [hb]; exact hm.behaviours_size
  · exact ⟨by rw [ht]; exact hm.extends_.types, by rw [hb]; exact hm.extends_.behaviours⟩
  · rw [Memo.unasked, ht, hb]; exact hm.budget
  · rw [ht]; exact hm.over_
  · rw [ht]; exact hm.written
  · rw [hb]; exact hm.found
  · rw [hb]; exact hm.within
  · rw [hb]; exact hm.own
  · rw [hb]; exact hm.full

theorem Asks.get : p.Asks (get : Typing Memo) := fun _ _ hm => ⟨trivial, hm⟩

theorem Asks.filterM {f : α → Typing Bool} {as : List α} (h : ∀ a ∈ as, p.Asks (f a)) : p.Asks (as.filterM f) := by
  have haux (acc : List α) : p.Asks (filterAuxM f as acc) := by
    induction as generalizing acc with
    | nil => exact .pure _
    | cons a as ih => grind [filterAuxM, bind]
  exact .bind (haux []) fun _ => .pure _

theorem Asks.forM {f : α → Typing PUnit} {as : List α} (h : ∀ a ∈ as, p.Asks (f a)) : p.Asks (as.forM f) := by
  induction as with
  | nil => exact .pure _
  | cons a as ih => simp_all [bind]

theorem keeps_methodOfMessage (hp : p.Grown) (hn : p.Has n) :
    Keeps (p.Since base) (p.methodOfMessage n) fun o => ∀ m ∈ o, p.Has m := by
  unfold methodOfMessage
  refine .bind (keeps_messageBehaviour hp hn) fun o ho => .pure fun m hm => ?_
  obtain ⟨b, hb, hm⟩ := Option.bind_eq_some_iff.mp hm
  obtain ⟨k, hk, hid⟩ := (ho b hb).method
  rw [hid, hk.at_] at hm
  cases hm
  exact hk

theorem asks_uses (k : NameKind) : p.Asks (p.uses k) := by
  unfold uses
  refine .bind .get fun m => ?_
  split
  · exact .pure _
  · exact .bind (asks_modify fun _ => ⟨rfl, rfl⟩) fun _ => .pure _

theorem asks_referencesTo (n : Node) (k : NameKind) : p.Asks (p.referencesTo n k) :=
  .bind (asks_uses k) fun _ => .pure _

theorem asks_methodReferences (hp : p.Grown) (m : Node) : p.Asks (p.methodReferences m) :=
  .filterM fun _ hn =>
    .bind (.of fun _ => keeps_methodOfMessage hp (has_of_mem_matching hp hn).1) fun _ => .pure _

theorem usageOwner?_above (h : p.usageOwner? n = some d) :
    ∃ parent, p.parent? n = some parent ∧ (d = parent ∨ p.parent? parent = some d) := by
  obtain ⟨parent, hparent, h⟩ := Option.bind_eq_some_iff.mp h
  refine ⟨parent, hparent, ?_⟩
  split at h
  · grind
  · obtain ⟨d', hd', h⟩ := Option.bind_eq_some_iff.mp h
    obtain ⟨-, -, h⟩ := Option.bind_eq_some_iff.mp h
    exact .inr (Option.some.inj h ▸ hd')
  · obtain ⟨d', hd', h⟩ := Option.bind_eq_some_iff.mp h
    obtain ⟨-, -, h⟩ := Option.bind_eq_some_iff.mp h
    exact .inr (Option.some.inj h ▸ hd')
  · grind
  · cases h

theorem keeps_usageTarget {I : Memo → Prop} {M : Node → Prop} (hn : M n) (himported : ∀ t, p.imported? n = some t → M t)
    (hmeaning : ∀ k t, p.declaration? n k = some t → M t) (hparent : ∀ a b, M a → p.parent? a = some b → M b)
    (hmethod : Keeps I (p.methodOfMessage n) fun o => ∀ m ∈ o, M m) :
    Keeps I (p.usageTarget n) fun o => ∀ t ∈ o, M t := by
  have howner (t : Node) (ht : p.usageOwner? n = some t) : M t := by
    obtain ⟨m, hm, rfl | ht⟩ := usageOwner?_above ht
    · exact hparent n t hn hm
    · exact hparent m t (hparent n m hn hm) ht
  have hnone : ∀ t ∈ (none : Option Node), M t := fun t ht => by cases ht
  unfold usageTarget
  split
  · exact .pure himported
  · exact .pure fun t ht => hmeaning _ t ht
  · exact .pure fun t ht => hmeaning _ t ht
  · exact .pure howner
  · exact .pure howner
  · split
    · split
      · rename_i parent hn'
        split
        · exact .pure fun t ht => hparent parent t (hparent n parent hn hn') ht
        · split
          · exact .pure fun t ht => Option.some.inj ht ▸ hparent n parent hn hn'
          · exact .pure hnone
      · exact .pure hnone
    · split
      · exact hmethod
      · exact .pure hnone

theorem Grown.keeps_usageTarget (hp : p.Grown) (hn : p.Has n) :
    Keeps (p.Since base) (p.usageTarget n) fun o => ∀ t ∈ o, p.Has t :=
  Program.keeps_usageTarget hn (fun _ ht => (hp.sown.imported ht).1) (fun _ _ ht => (hp.meaning hn ht).1)
    (fun _ _ ha hb => (hp.sown.has_parent ha hb).1) (keeps_methodOfMessage hp hn)

/-- The end of a question about a usage: what is found is remembered for all that it speaks of. -/
def noteUsage (n : Node) (u : Option Usage) : Typing (Option Usage) := do
  if let some u := u then u.members.forM (setUsage (some u))
  setUsage u n
  return u

theorem asks_usageIn (hp : p.Grown) (fuel : Nat) (hn : p.Has n) : p.Asks (p.usageIn fuel n) := by
  induction fuel generalizing n with
  | zero =>
    unfold usageIn
    exact .pure _
  | succ fuel ih =>
    have hset (u : Option Usage) (k : Node) : p.Asks (setUsage u k) := asks_modify fun _ => ⟨rfl, rfl⟩
    have hrest (u : Option Usage) : p.Asks (noteUsage n u) := by
      unfold noteUsage
      split
      · exact .bind (.forM fun k _ => hset _ k) fun _ => .bind (hset _ n) fun _ => .pure _
      · exact .bind (hset _ n) fun _ => .pure _
    unfold usageIn
    refine .bind .get fun m => ?_
    split
    · exact .pure _
    · simp only
      split
      · exact .bind (asks_referencesTo n _) fun _ => .bind (.pure _) hrest
      · split
        · exact .bind (asks_methodReferences hp n) fun _ => .bind (.pure _) hrest
        · intro base
          refine .bind (hp.keeps_usageTarget hn) fun o ho => ?_
          split
          · rename_i t
            exact .bind (ih (ho t rfl) base) fun u _ => hrest u base
          · exact Asks.bind (.pure none) hrest base

theorem asks_usage (hp : p.Grown) (hn : p.Has n) : p.Asks (p.usage n) := asks_usageIn hp 8 hn

theorem Grown.walk (hp : p.Grown) : p.Walk True (@fun α (x : Typing α) Q => ∀ base, Keeps (p.Since base) x Q) where
  grown _ := hp
  pure h _ := .pure h
  bind hx hf base := (hx base).bind fun a ha => hf a ha base
  expression h _ := (keeps_expressionType hp (h trivial).1 (h trivial).2).mono fun _ ht _ => ht
  declaration h _ := (keeps_declarationType hp (h trivial).1 (h trivial).2).mono fun _ ht _ => ht.1
  typeExpression h _ := (keeps_typeExpressionType hp (h trivial).1 (h trivial).2).mono fun _ ht _ => ht.1
  standard name _ := (keeps_standardType hp name).mono fun _ ht _ => ht.1
  behaviours h _ := (keeps_behaviours hp (h trivial)).mono fun _ hbs _ => hbs
  message h _ := (keeps_messageBehaviour hp (h trivial)).mono fun _ ho _ => ho
  uses k := asks_uses k
  usage hn hs := asks_usage hp ((has_of_mem_matching hp hn).1.symbol hs)

theorem asks_refusal (hp : p.Grown) (ht : t.Over p) (hu : u.Over p) (invariant : Bool) :
    p.Asks (p.refusal t u invariant) :=
  hp.walk.refusal (fun _ => ht) (fun _ => hu) invariant

theorem asks_runAll (hp : p.Grown) : p.Asks (Check.runAll Check.all p) := hp.walk.runAll

end Program

end Parlance
