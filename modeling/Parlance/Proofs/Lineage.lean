import Parlance.Proofs.Histories
/-!
Where behaviours come from: from methods of the class or of one above it, with the arguments put in that the
classes on the way give to each other.
-/
open List

namespace Parlance.Program

open Memo

variable {p : Program} {m m' : Memo} {b : Behaviour} {c n : Node} {fuel : Nat}

/-- A class leads up to another by the types that are remembered of what it and those above it say they are. The
arguments on the way are composed. -/
inductive Ascends (p : Program) (m : Memo) : Node → Ty.Substitution → Node → Prop where
  | here (c : Node) : Ascends p m c [] c
  | above {c s d t : Node} {name : String} {args : List Ty} {σ : Ty.Substitution} (ht : t ∈ p.superExpressions c)
    (hm : m.types[t.id]? = some (some (.object name s.id args))) (hs : p.node? s.id = some s) (h : Ascends p m s σ d) :
    Ascends p m c (σ.andThen (p.substitution (some s) args)) d

/-- A behaviour that is remembered of a class and that of one of its own methods. -/
def Declares (p : Program) (m : Memo) (d : Node) (b : Behaviour) : Prop :=
  (∃ k ∈ p.methods d, b.method = k.id) ∧ ∃ bs, m.behaviours[d.id]? = some (some bs) ∧ b ∈ bs

/-- The behaviour is that of a class above under the arguments on the way there. -/
def Descends (p : Program) (m : Memo) (c : Node) (b : Behaviour) : Prop :=
  ∃ d σ b₀, p.Ascends m c σ d ∧ p.Declares m d b₀ ∧ b = b₀.subst σ

/-- Classes that are known as types, and behaviours, are so later on as well. -/
structure Gains (m m' : Memo) : Prop where
  types : ∀ {i : Nat} {t : Ty}, t ≠ .unknown → m.types[i]? = some (some t) → m'.types[i]? = some (some t)
  behaviours : ∀ {i : Nat} {bs : List Behaviour} {b : Behaviour}, m.behaviours[i]? = some (some bs) → b ∈ bs →
    ∃ bs', m'.behaviours[i]? = some (some bs') ∧ b ∈ bs'

theorem Descends.later (h : p.Descends m c b) (hm : Gains m m') : p.Descends m' c b := by
  obtain ⟨d, σ, b₀, hup, ⟨hk, bs, hbs, hb⟩, rfl⟩ := h
  refine ⟨d, σ, b₀, ?_, ⟨hk, hm.behaviours hbs hb⟩, rfl⟩
  clear hbs hb hk
  induction hup with
  | here c => exact .here c
  | above ht htype hs _ ih => exact .above ht (hm.types nofun htype) hs ih

theorem Retains.getElem? {α : Type} {as bs : Array (Option α)} (h : Retains as bs) {i : Nat} {a : α}
    (ha : as[i]? = some (some a)) : bs[i]? = some (some a) :=
  Option.join_eq_some_iff.mp (h.2 i a (by rw [ha, Option.join_some]))

theorem gains_of_later (h : Later p m m') : Gains m m' :=
  ⟨fun _ hi => Retains.getElem? h.types hi, fun hi hb => ⟨_, Retains.getElem? h.behaviours hi, hb⟩⟩

theorem gains_withType (h : ∀ t, m.types[n.id]? = some (some t) → t = .unknown) (t : Ty) :
    Gains m (m.withType n t) := by
  refine ⟨fun {i u} hu hi => ?_, fun hi hb => ⟨_, hi, hb⟩⟩
  have hne : n.id ≠ i := by
    rintro rfl
    exact hu (h _ hi)
  rw [withType, Array.getElem?_setIfInBounds_ne hne, hi]

theorem gains_withBehaviours (h : ∀ bs, m.behaviours[c.id]? = some (some bs) → bs = []) (cs : List Behaviour) :
    Gains m (m.withBehaviours c cs) := by
  refine ⟨fun _ hi => hi, fun {i bs b} hi hb => ⟨bs, ?_, hb⟩⟩
  have hne : c.id ≠ i := by
    rintro rfl
    rw [h _ hi] at hb
    cases hb
  rw [withBehaviours, Array.getElem?_setIfInBounds_ne hne, hi]

/-- Whatever is remembered of a class descends from it or from those above it. -/
structure Lineal (p : Program) (m : Memo) : Prop where
  types : m.types.size = p.nodes.size
  behaviours : m.behaviours.size = p.nodes.size
  descends : ∀ c ∈ p.nodes, ∀ bs, m.behaviours[c.id]? = some (some bs) → ∀ b ∈ bs, p.Descends m c b

theorem lineal_fresh (p : Program) : p.Lineal (.fresh p) where
  types := by simp [fresh]
  behaviours := by simp [fresh]
  descends := fun c _ bs h => by simp [fresh, Array.getElem?_replicate] at h

theorem Lineal.withType (h : p.Lineal m) (hn : ∀ t, m.types[n.id]? = some (some t) → t = .unknown) (t : Ty) :
    p.Lineal (m.withType n t) where
  types := Array.size_setIfInBounds.trans h.types
  behaviours := h.behaviours
  descends := fun c hc bs hbs b hb => (h.descends c hc bs hbs b hb).later (gains_withType hn t)

theorem Lineal.withBehaviours (hp : p.Laid) (h : p.Lineal m) (hc : c ∈ p.nodes)
    (hnone : ∀ bs, m.behaviours[c.id]? = some (some bs) → bs = []) {cs : List Behaviour}
    (hcs : ∀ b ∈ cs, p.Descends (m.withBehaviours c cs) c b) : p.Lineal (m.withBehaviours c cs) where
  types := h.types
  behaviours := Array.size_setIfInBounds.trans h.behaviours
  descends := fun k hk bs hbs b hb => by
    rcases getElem?_set_some hbs with ⟨hid, rfl⟩ | ⟨-, hbs⟩
    · obtain rfl := Option.some.inj ((hp.node?_id hc).symm.trans (hid ▸ hp.node?_id hk))
      exact hcs b hb
    · exact (h.descends k hk bs hbs b hb).later (gains_withBehaviours hnone cs)

/-- A question after which all is lineal that was before. -/
structure Faithful (p : Program) {α : Type} (x : Typing α) : Prop where
  sure : p.Sure x
  lineal : ∀ m, Tidy p m → p.Lineal m → p.Lineal (x.run m).2

theorem composes_faithful (p : Program) : Composes p.Faithful where
  pure a := ⟨.pure a, fun _ _ h => h⟩
  bind hx hf := ⟨hx.sure.bind fun a => (hf a).sure, fun m hm h =>
    (hf _).lineal _ (hx.sure.steady m hm).1 (hx.lineal m hm h)⟩

theorem Retains.eq_of_set {α : Type} {as bs : Array (Option α)} {i : Nat} {x y : α}
    (h : Retains (as.setIfInBounds i (some x)) bs) (hy : bs[i]? = some (some y)) : y = x := by
  have hlt : i < as.size := by simpa [h.1] using (Array.getElem?_eq_some_iff.mp hy).1
  have hx := h.2 i x (by rw [Array.getElem?_setIfInBounds_self_of_lt hlt, Option.join_some])
  rw [hy, Option.join_some] at hx
  exact Option.some.inj hx

theorem Faithful.type (n : Node) {work : Typing Ty} (h : p.Faithful work) : p.Faithful (Memo.type n work) where
  sure := h.sure.type n
  lineal m hm hl := by
    rw [run_type]
    cases hj : m.types[n.id]?.join with
    | some t => exact hl
    | none =>
      have htidy : Tidy p (m.withType n .unknown) := ⟨hm.size, hm.uses, hm.members⟩
      have hopen : p.Lineal (m.withType n .unknown) := hl.withType (fun t ht => by simp [ht] at hj) .unknown
      exact (h.lineal _ htidy hopen).withType (fun t ht => Retains.eq_of_set (h.sure.steady _ htidy).2.types ht) _

/-! ### What a class gathers -/

/-- A behaviour that is found for a class: that of one of its methods, or one of a class that it says it is. -/
def Stems (p : Program) (m : Memo) (c : Node) (b : Behaviour) : Prop :=
  (∃ k ∈ p.methods c, b.method = k.id) ∨
    ∃ t ∈ p.superExpressions c, ∃ name s args b', m.types[t.id]? = some (some (.object name s.id args)) ∧
      p.node? s.id = some s ∧ p.Descends m s b' ∧ b = b'.subst (p.substitution (some s) args)

theorem Stems.later (h : p.Stems m c b) (hm : Gains m m') : p.Stems m' c b := by
  refine h.imp_right ?_
  rintro ⟨t, ht, name, s, args, b', htype, hs, hb', rfl⟩
  exact ⟨t, ht, name, s, args, b', hm.types nofun htype, hs, hb'.later hm, rfl⟩

/-- It descends from the class once that remembers it. -/
theorem Stems.descends {bs : List Behaviour} (h : p.Stems m c b) (hm : m.behaviours[c.id]? = some (some bs))
    (hb : b ∈ bs) : p.Descends m c b := by
  rcases h with hk | ⟨t, ht, name, s, args, b', htype, hs, ⟨d, σ, b₀, hup, hd, rfl⟩, rfl⟩
  · exact ⟨c, [], b, .here c, ⟨hk, bs, hm, hb⟩, by simp [Behaviour.subst, Ty.subst_nil, Ty.substAll_nil]⟩
  · exact ⟨d, _, b₀, .above ht htype hs hup, hd, b₀.subst_subst _ _⟩

theorem keeps_any {α : Type} (x : Typing α) : Keeps (fun _ => True) x fun _ => True := fun _ _ => ⟨trivial, trivial⟩

theorem method_of_patternBehaviour (method : Nat) (receiver result : Ty) (q : Node) :
    Keeps (fun _ => True) (p.patternBehaviourIn fuel method receiver result q) fun o => ∀ b ∈ o, b.method = method := by
  have hone (form : MessageForm) (parts : List String) (args : List Ty) :
      ∀ b ∈ some (Behaviour.mk method receiver form parts args result), b.method = method := by
    rintro b ⟨⟩
    rfl
  cases fuel with
  | zero => exact .pure nofun
  | succ fuel =>
    rw [patternBehaviourIn]
    split
    · split <;> exact .pure (by first | exact hone _ _ _ | nofun)
    · dsimp only
      split <;> refine .bind (keeps_any _) fun arg _ => ?_
      all_goals split <;> exact .pure (by first | exact hone _ _ _ | nofun)
    · refine .bind (keeps_any _) fun args _ => ?_
      dsimp only
      split <;> exact .pure (by first | exact hone _ _ _ | nofun)
    · exact .pure nofun

theorem method_of_methodBehaviour (k : Node) (receiver : Ty) :
    Keeps (fun _ => True) (p.methodBehaviourIn fuel k receiver) fun o => ∀ b ∈ o, b.method = k.id := by
  cases fuel with
  | zero => exact .pure nofun
  | succ fuel =>
    rw [methodBehaviourIn]
    split
    · exact .pure nofun
    · refine .bind (method_of_patternBehaviour _ _ _ _) fun o ho => ?_
      split
      · exact .pure nofun
      · rename_i b
        have hresult (t : Ty) : ∀ c ∈ some { b with result := t }, c.method = k.id := by
          rintro c ⟨⟩
          exact ho b rfl
        split
        · split
          · exact .bind (keeps_any _) fun t _ => .pure (hresult t)
          · exact .pure ho
        · exact .bind (keeps_any _) fun t _ => .pure (hresult t)
        · exact .pure ho

/-- A lineal memory in which all is remembered that was remembered in another. -/
def Grounded (p : Program) (base m : Memo) : Prop := p.From base m ∧ p.Lineal m

variable {base : Memo}

theorem Faithful.grounded {α : Type} {x : Typing α} (h : p.Faithful x) : Keeps (p.Grounded base) x fun _ => True :=
  fun m hm => ⟨trivial, (h.sure.steady.keeps m hm.1).2, h.lineal m hm.1.1 hm.2⟩

theorem Laid.lt_size (hp : p.Laid) (hn : n ∈ p.nodes) : n.id < p.nodes.size :=
  (Array.getElem?_eq_some_iff.mp (hp.node?_id hn)).1

/-- What is answered about a class descends from it. -/
theorem Laid.descends_answer (hp : p.Laid) (hc : c ∈ p.nodes) (hm : p.Lineal ((p.classBehavioursIn fuel c).run m).2) :
    ∀ b ∈ ((p.classBehavioursIn fuel c).run m).1, p.Descends ((p.classBehavioursIn fuel c).run m).2 c b := by
  cases fuel with
  | zero => exact forall_mem_nil _
  | succ fuel =>
    rw [classBehavioursIn] at hm ⊢
    split at hm
    · rw [if_pos ‹_›]
      exact forall_mem_nil _
    · rw [if_neg ‹_›]
      exact hm.descends c hc _ (remembers_classBehaviours c _ m (hm.behaviours ▸ hp.lt_size hc))

theorem remembers_type (n : Node) (work : Typing Ty) (m : Memo) (h : n.id < ((Memo.type n work).run m).2.types.size) :
    ((Memo.type n work).run m).2.types[n.id]? = some (some ((Memo.type n work).run m).1) := by
  grind [run_type, withType]

/-- A class that a written type is answered to be is remembered. -/
theorem Laid.remembers_typeExpression (hp : p.Laid) (hn : n ∈ p.nodes) {name : String} {id : Nat} {args : List Ty}
    (hm : p.Lineal ((p.typeExpressionTypeIn fuel n).run m).2)
    (h : ((p.typeExpressionTypeIn fuel n).run m).1 = .object name id args) :
    ((p.typeExpressionTypeIn fuel n).run m).2.types[n.id]? = some (some (.object name id args)) := by
  cases fuel with
  | zero => cases h
  | succ fuel =>
    rw [typeExpressionTypeIn] at hm h ⊢
    rw [← h]
    exact remembers_type n _ m (hm.types ▸ hp.lt_size hn)

theorem bind_induction {σ α β : Type} {P : β → σ → Prop} {x : StateM σ α} {f : α → StateM σ β} {s : σ}
    (h : P ((f (x.run s).1).run (x.run s).2).1 ((f (x.run s).1).run (x.run s).2).2) :
    P ((x >>= f).run s).1 ((x >>= f).run s).2 := h

theorem foldlM_induction {σ α β : Type} {P : β → σ → Prop} {f : β → α → StateM σ β} {as : List α} {b : β} {s : σ}
    (hb : P b s) (h : ∀ a ∈ as, ∀ b s, P b s → P ((f b a).run s).1 ((f b a).run s).2) :
    P ((as.foldlM f b).run s).1 ((as.foldlM f b).run s).2 := by
  induction as generalizing b s with
  | nil => exact hb
  | cons a as ih => exact ih (h a mem_cons_self b s hb) fun a ha => h a (.tail _ ha)

theorem mem_of_superExpression {t : Node} (ht : t ∈ p.superExpressions c) : t ∈ p.nodes := by
  obtain ⟨d, -, h⟩ := mem_filterMap.mp ht
  exact Forest.mem_of_part? h

/-- What has been found for a class, and what is remembered then. -/
def Gathering (p : Program) (base : Memo) (c : Node) (bs : List Behaviour) (m : Memo) : Prop :=
  p.Grounded base m ∧ ∀ b ∈ bs, p.Stems m c b

theorem Laid.gathering_step (hp : p.Laid) (h : p.Certain p.Faithful fuel) {t : Node} (ht : t ∈ p.superExpressions c)
    {found : List Behaviour} (hfound : p.Gathering base c found m) {step : Typing (List Behaviour)} (hstep : step = do
      match ← p.typeExpressionTypeIn fuel t with
      | .object _ id args =>
        match p.node? id with
        | some s =>
          let inherited ← p.classBehavioursIn fuel s
          return addBehaviours found (inherited.map (·.subst (p.substitution (some s) args)))
        | none => return found
      | _ => return found) : p.Gathering base c (step.run m).1 (step.run m).2 := by
  subst hstep
  obtain ⟨hm, hstems⟩ := hfound
  have htype := (h.typeExpression t).grounded m hm
  refine bind_induction (P := p.Gathering base c) ?_
  have hlater : Gains m ((p.typeExpressionTypeIn fuel t).run m).2 :=
    gains_of_later ((h.typeExpression t).sure.steady m hm.1.1).2
  have hfound : p.Gathering base c found ((p.typeExpressionTypeIn fuel t).run m).2 :=
    ⟨htype.2, fun b hb => (hstems b hb).later hlater⟩
  split
  · rename_i name id args hobject
    split
    · rename_i s hs
      obtain rfl : s.id = id := hp.numbered id s hs
      have hmem := Forest.mem_of_node? hs
      have hclass := (h.class_ s hmem).grounded _ htype.2
      have hlater' := gains_of_later ((h.class_ s hmem).sure.steady _ htype.2.1.1).2
      refine bind_induction (P := p.Gathering base c) ⟨hclass.2, fun b hb => ?_⟩
      rcases mem_addBehaviours hb with hb | hb
      · exact (hfound.2 b hb).later hlater'
      · obtain ⟨b', hb', rfl⟩ := mem_map.mp hb
        exact .inr ⟨t, ht, name, s, args, b', hlater'.types nofun
          (hp.remembers_typeExpression (mem_of_superExpression ht) htype.2.2 hobject), hs,
          hp.descends_answer hmem hclass.2.2 b' hb', rfl⟩
    · exact hfound
  · exact hfound

theorem Laid.faithful_class (hp : p.Laid) (h : p.Certain p.Faithful fuel) (hc : c ∈ p.nodes) :
    p.Faithful (p.classBehavioursIn (fuel + 1) c) where
  sure := (p.certain _).class_ c hc
  lineal m hm hl := by
    rw [classBehavioursIn]
    split
    · exact hl
    rw [run_classBehaviours]
    cases hj : m.behaviours[c.id]?.join with
    | some bs => exact hl
    | none =>
      have hnone (bs : List Behaviour) (hbs : m.behaviours[c.id]? = some (some bs)) : bs = [] := by simp [hbs] at hj
      have hopen : p.Grounded (m.withBehaviours c []) (m.withBehaviours c []) :=
        ⟨⟨⟨hm.size, hm.uses, hm.members⟩, .refl _⟩, hl.withBehaviours hp hc hnone (forall_mem_nil _)⟩
      have hclose {bs : List Behaviour} {m' : Memo} (hg : p.Gathering (m.withBehaviours c []) c bs m') :
          p.Lineal (m'.withBehaviours c bs) := by
        obtain ⟨⟨⟨-, hlater⟩, hl'⟩, hstems⟩ := hg
        have hnone' (cs : List Behaviour) (hcs : m'.behaviours[c.id]? = some (some cs)) : cs = [] :=
          Retains.eq_of_set hlater.behaviours hcs
        have hlt : c.id < m'.behaviours.size := hl'.behaviours ▸ hp.lt_size hc
        exact hl'.withBehaviours hp hc hnone' fun b hb =>
          ((hstems b hb).later (gains_withBehaviours hnone' bs)).descends
          (Array.getElem?_setIfInBounds_self_of_lt hlt) hb
      refine hclose (bind_induction (bind_induction (foldlM_induction ?_ fun t ht found m' hfound =>
        hp.gathering_step h ht hfound rfl)))
      have hmethods (declared : Ty) := Keeps.filterMapM (I := p.Grounded (m.withBehaviours c []))
        (S := fun k o => ∀ b ∈ o, b.method = k.id) (f := (p.methodBehaviourIn fuel · declared))
          fun k (_ : k ∈ p.methods c) m' hm' =>
          ⟨(method_of_methodBehaviour k declared m' trivial).1, ((h.method k declared).grounded m' hm').2⟩
      obtain ⟨⟨os, hos, hown⟩, hground⟩ := hmethods _ _ ((h.declaration c).grounded _ hopen).2
      refine ⟨hground, fun b hb => .inl ?_⟩
      obtain ⟨o, ho, hbo⟩ := mem_filterMap.mp (hown ▸ (mem_addBehaviours hb).resolve_left not_mem_nil)
      obtain ⟨k, hk, hko⟩ := Forest.exists_of_mem hos.flip ho
      exact ⟨k, hk, hko b hbo⟩

theorem Laid.carries_faithful (hp : p.Laid) : p.Carries p.Faithful where
  toComposes := p.composes_faithful
  type n _ h := h.type n
  class_ h _ hc := hp.faithful_class h hc

/-! ### After any questions -/

/-- What can be asked one after another about the types of a program. -/
inductive Query where
  | expression (n : Node)
  | declaration (n : Node)
  | written (n : Node)
  | message (n : Node)
  | behaviours (t : Ty)

def Query.after (p : Program) (m : Memo) : Query → Memo
  | expression n => ((p.expressionType n).run m).2
  | declaration n => ((p.declarationType n).run m).2
  | written n => ((p.typeExpressionType n).run m).2
  | message n => ((p.messageBehaviour n).run m).2
  | behaviours t => ((p.behaviours t).run m).2

theorem Laid.lineal_after (hp : p.Laid) (qs : List Query) :
    Tidy p (qs.foldl (Query.after p) (.fresh p)) ∧ p.Lineal (qs.foldl (Query.after p) (.fresh p)) := by
  refine foldlRecOn (motive := fun m => Tidy p m ∧ p.Lineal m) qs _ ⟨tidy_fresh p, p.lineal_fresh⟩ ?_
  rintro m ⟨htidy, hlineal⟩ q -
  have hstep {α : Type} {x : Typing α} (hx : p.Faithful x) : Tidy p (x.run m).2 ∧ p.Lineal (x.run m).2 :=
    ⟨(hx.sure.steady m htidy).1, hx.lineal m htidy hlineal⟩
  have h := hp.carries_faithful.certain p.patience
  cases q with
  | expression n => exact hstep (h.expression n)
  | declaration n => exact hstep (h.declaration n)
  | written n => exact hstep (h.typeExpression n)
  | message n => exact hstep (h.message n)
  | behaviours t => exact hstep (h.behaviours t)

/-- Arguments that are put in one after the other are as good as all at once. So whatever has been asked before, each
behaviour of a class is that of a method of a class above it under the arguments that are composed on the way there,
and bound to the receiver. -/
theorem behaviours_composed : (∀ (σ τ : Ty.Substitution) (id : Nat),
      (σ.andThen τ).lookup id = ((σ.lookup id).map (Ty.subst τ)).or (τ.lookup id)) ∧
    (∀ (t : Ty) (σ τ : Ty.Substitution), (t.subst σ).subst τ = t.subst (σ.andThen τ)) ∧
    ∀ (ds : List Document) (qs : List Query) (name : String) (args : List Ty),
      let p := ofDocuments ds
      ∀ c ∈ p.nodes, let r := (p.behaviours (.object name c.id args)).run (qs.foldl (Query.after p) (.fresh p))
        ∀ b ∈ r.1, ∃ d σ b₀, p.Ascends r.2 c σ d ∧ p.Declares r.2 d b₀ ∧
          b = (b₀.subst (σ.andThen (p.substitution (some c) args))).bindSelf (.object name c.id args) := by
  refine ⟨fun σ τ id => Ty.lookup_andThen .., fun t σ τ => t.subst_subst .., fun ds qs name args => ?_⟩
  intro p c hc r b hb
  have hp : p.Laid := laid_ofDocuments ds
  obtain ⟨htidy, hlineal⟩ := hp.lineal_after qs
  have hanswer : r = (p.applied c name args <$> p.classBehavioursIn (p.patience - 2) c).run _ :=
    congrArg (StateT.run · _) (behaviours_object (hp.node?_id hc) name args)
  have hclass := (hp.carries_faithful.certain (p.patience - 2)).class_ c hc
  rw [hanswer] at hb ⊢
  obtain ⟨b', hb', rfl⟩ := mem_map.mp hb
  obtain ⟨d, σ, b₀, hup, hd, rfl⟩ := hp.descends_answer hc (hclass.lineal _ htidy hlineal) b' hb'
  exact ⟨d, σ, b₀, hup, hd, by rw [b₀.subst_subst]⟩

def kennelProgram : Program := ofDocuments [(Source.ofString .module "test:kennels.loa"
  ("class Cage<T> { lodger -> T => self lodger. }\n" ++
    "class Kennel<D> { is Cage<D>. }\nclass Pound { is Kennel<Pound>. }")).parse none]

/-- What the third class answers to is declared by the first, since the others have no methods. -/
theorem behaviours_composed_kennel : ∃ c ∈ kennelProgram.nodes,
    let r := (kennelProgram.behaviours (.object "Pound" c.id [])).run (.fresh kennelProgram)
    (kennelProgram.methods c).isEmpty ∧ ∃ b ∈ r.1, b.selector = "lodger" ∧ b.result.render = "Pound" ∧
      ∃ d σ b₀, kennelProgram.Ascends r.2 c σ d ∧ kennelProgram.Declares r.2 d b₀ ∧
        b = (b₀.subst (σ.andThen (kennelProgram.substitution (some c) []))).bindSelf (.object "Pound" c.id []) := by
  have hfound : ∃ c ∈ kennelProgram.matching Shape.isClass, (kennelProgram.methods c).isEmpty ∧
      ∃ b ∈ ((kennelProgram.behaviours (.object "Pound" c.id [])).run (.fresh kennelProgram)).1,
        b.selector = "lodger" ∧ b.result.render = "Pound" := by
    decide +kernel
  obtain ⟨c, hc, hnone, b, hb, hlodger, hresult⟩ := hfound
  have hmem : c ∈ kennelProgram.nodes := (solid_of_mem_matching (fun _ => rfl) hc).1
  exact ⟨c, hmem, hnone, b, hb, hlodger, hresult, behaviours_composed.2.2 _ [] "Pound" [] c hmem b hb⟩

end Parlance.Program
