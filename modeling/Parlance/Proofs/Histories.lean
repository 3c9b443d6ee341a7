import Mathlib.Data.Option.Basic
import Parlance.Proofs.Inquiries
import Parlance.Server
/-!
What a server answers after a history of changes and questions: what is remarked hangs on what was asked since
the last change and before the remarks were asked for the first time.
-/
open List

namespace Parlance

def Program.Solid (p : Program) (n : Node) : Prop := n ∈ p.nodes ∧ n.shape.isSymbol = false

def Program.Firm (p : Program) (o : Option Usage) : Prop := ∀ u ∈ o, ∀ n ∈ u.members, p.Solid n

namespace Memo

variable {p : Program} {m m' m'' : Memo} {α : Type}

/-- What is remembered about references is right, and usages have nodes of the program as their members,
none of which is a mere name. -/
structure Tidy (p : Program) (m : Memo) : Prop where
  size : m.usages.size = p.nodes.size
  uses : ∀ k found, m.uses.lookup k = some found → found = p.resolved k
  members : ∀ (i : Nat) (o : Option Usage), m.usages[i]? = some (some o) → p.Firm o

def Retains {α : Type} (a b : Array (Option α)) : Prop :=
  b.size = a.size ∧ ∀ (i : Nat) (x : α), a[i]?.join = some x → b[i]?.join = some x

theorem Retains.refl (a : Array (Option α)) : Retains a a := ⟨rfl, fun _ _ h => h⟩

theorem Retains.trans {a b c : Array (Option α)} (h : Retains a b) (h' : Retains b c) : Retains a c :=
  ⟨h'.1.trans h.1, fun i x hx => h'.2 i x (h.2 i x hx)⟩

theorem Retains.set {a b : Array (Option α)} {n : Nat} {x y : α} (hn : a[n]?.join = none)
    (h : Retains (a.setIfInBounds n (some x)) b) : Retains a (b.setIfInBounds n (some y)) := by
  refine ⟨by simpa using h.1, fun i z hz => ?_⟩
  have hne : n ≠ i := by
    rintro rfl
    simp [hz] at hn
  rw [Array.getElem?_setIfInBounds_ne hne]
  exact h.2 i z (by rw [Array.getElem?_setIfInBounds_ne hne, hz])

/-- What was remembered is remembered: types, behaviours and the usages that names belong to. -/
structure Later (p : Program) (m m' : Memo) : Prop where
  types : Retains m.types m'.types
  behaviours : Retains m.behaviours m'.behaviours
  usages : ∀ s ∈ p.nodes, s.shape.isSymbol → ∀ u, m.usages[s.id]? = some (some u) →
    m'.usages[s.id]? = some (some u)

theorem Later.refl (m : Memo) : Later p m m := ⟨.refl _, .refl _, fun _ _ _ _ h => h⟩

theorem Later.trans (h : Later p m m') (h' : Later p m' m'') : Later p m m'' where
  types := h.types.trans h'.types
  behaviours := h.behaviours.trans h'.behaviours
  usages := fun s hs hw u hu => h'.usages s hs hw u (h.usages s hs hw u hu)

theorem tidy_fresh (p : Program) : Tidy p (.fresh p) where
  size := by simp [fresh]
  uses := nofun
  members := fun i o h => by grind [fresh]

end Memo

namespace Program

open Memo

variable {p : Program} {α β : Type} {x : Typing α} {f : α → Typing β}

/-- A question after which all that was remembered is remembered. -/
def Steady (p : Program) (x : Typing α) : Prop :=
  ∀ m, Tidy p m → Tidy p (x.run m).2 ∧ Later p m (x.run m).2

/-- A question that has the same answer whenever it is asked again. -/
structure Sure (p : Program) (x : Typing α) : Prop where
  steady : p.Steady x
  again : ∀ m m', Tidy p m → Tidy p m' → Later p (x.run m).2 m' → (x.run m').1 = (x.run m).1

theorem Steady.bind (hx : p.Steady x) (hf : ∀ m, p.Steady (f (x.run m).1)) : p.Steady (x >>= f) := by
  intro m hm
  obtain ⟨htidy, hlater⟩ := hx m hm
  obtain ⟨htidy', hlater'⟩ := hf m _ htidy
  exact ⟨htidy', hlater.trans hlater'⟩

namespace Sure

theorem pure (a : α) : p.Sure (Pure.pure a) := ⟨fun m hm => ⟨hm, .refl m⟩, fun _ _ _ _ _ => rfl⟩

theorem run_bind (hx : p.Sure x) (hf : ∀ m, p.Sure (f (x.run m).1)) : p.Sure (x >>= f) where
  steady := hx.steady.bind fun m => (hf m).steady
  again := fun m m' hm hm' h => by
    obtain ⟨htidy, -⟩ := hx.steady m hm
    obtain ⟨-, hlater⟩ := (hf m).steady _ htidy
    obtain ⟨htidy', hlater'⟩ := hx.steady m' hm'
    show (((f (x.run m').1).run (x.run m').2).1 : β) = ((f (x.run m).1).run (x.run m).2).1
    rw [hx.again m m' hm hm' (hlater.trans h)]
    exact (hf m).again _ _ htidy htidy' (h.trans hlater')

theorem bind (hx : p.Sure x) (hf : ∀ a, p.Sure (f a)) : p.Sure (x >>= f) := hx.run_bind fun _ => hf _

/-- A question whose answer is remembered in a table, if that has room for it. -/
theorem of_table (table : Memo → Array (Option α)) (put : Memo → α → Memo) (d : α) {n : Nat} {work : Typing α}
    (hwork : p.Sure work) (hfound : ∀ m a, (table m)[n]?.join = some a → x.run m = (a, m))
    (hrun : ∀ m, (table m)[n]?.join = none →
      x.run m = ((work.run (put m d)).1, put (work.run (put m d)).2 (work.run (put m d)).1))
    (hput : ∀ m a, table (put m a) = (table m).setIfInBounds n (some a))
    (hfull : ∀ m a, (table m).size ≤ n → put m a = m)
    (htidy : ∀ m a, Tidy p m → Tidy p (put m a)) (htable : ∀ m m', Later p m m' → Retains (table m) (table m'))
    (hlater : ∀ m m' a b, (table m)[n]?.join = none → Later p (put m a) m' → Later p m (put m' b)) : p.Sure x := by
  have hsteady : p.Steady x := fun m hm => by
    cases hj : (table m)[n]?.join with
    | some a =>
      rw [hfound m a hj]
      exact ⟨hm, .refl m⟩
    | none =>
      rw [hrun m hj]
      obtain ⟨htidy', hlater'⟩ := hwork.steady _ (htidy m d hm)
      exact ⟨htidy _ _ htidy', hlater _ _ _ _ hj hlater'⟩
  refine ⟨hsteady, fun m m' hm hm' hstep => ?_⟩
  have hsize := (htable _ _ (hsteady m hm).2).1
  by_cases hn : n < (table m).size
  · have hset : (table (x.run m).2)[n]?.join = some (x.run m).1 := by
      cases hj : (table m)[n]?.join with
      | some a => rw [hfound m a hj, hj]
      | none => grind
    rw [hfound m' _ ((htable _ _ hstep).2 n _ hset)]
  · have hsame (m : Memo) (hm : Tidy p m) (hn : (table m).size ≤ n) : x.run m = work.run m := by
      rw [hrun m (by rw [Array.getElem?_eq_none hn, Option.join_none]), hfull m d hn,
        hfull _ _ ((htable _ _ (hwork.steady m hm).2).1 ▸ hn)]
      rfl
    rw [hsame m hm (by omega)] at hstep ⊢
    rw [hsame m' hm' ((htable _ _ ((hwork.steady m hm).2.trans hstep)).1 ▸ by omega)]
    exact hwork.again m m' hm hm' hstep

theorem type (n : Node) {work : Typing Ty} (h : p.Sure work) : p.Sure (Memo.type n work) :=
  of_table (n := n.id) Memo.types (·.withType n ·) .unknown h (fun m t hj => by rw [Memo.run_type, hj])
    (fun m hj => by rw [Memo.run_type, hj]) (fun _ _ => rfl)
    (fun m _ hn => by rw [withType, Array.setIfInBounds, dif_neg (by omega)])
    (fun _ _ hm => ⟨hm.size, hm.uses, hm.members⟩)
    (fun _ _ h => h.types) fun _ _ _ _ hj h => ⟨h.types.set hj, h.behaviours, h.usages⟩

theorem classBehaviours (n : Node) {work : Typing (List Behaviour)} (h : p.Sure work) :
    p.Sure (Memo.classBehaviours n work) :=
  of_table (n := n.id) Memo.behaviours (·.withBehaviours n ·) [] h (fun m t hj => by rw [Memo.run_classBehaviours, hj])
    (fun m hj => by rw [Memo.run_classBehaviours, hj]) (fun _ _ => rfl)
    (fun m _ hn => by rw [withBehaviours, Array.setIfInBounds, dif_neg (by omega)])
    (fun _ _ hm => ⟨hm.size, hm.uses, hm.members⟩) (fun _ _ h => h.behaviours)
    fun _ _ _ _ hj h => ⟨h.types, h.behaviours.set hj, h.usages⟩

end Sure

/-- Something that can be said of questions one after another. -/
structure Composes (K : ∀ {α : Type}, Typing α → Prop) : Prop where
  pure {α : Type} (a : α) : K (Pure.pure a)
  bind {α β : Type} {x : Typing α} {f : α → Typing β} (hx : K x) (hf : ∀ a, K (f a)) : K (x >>= f)

variable {K : ∀ {α : Type}, Typing α → Prop}

namespace Composes

variable (w : Composes K) {as : List α}

include w

theorem map (f : α → β) (hx : K x) : K (f <$> x) := w.bind hx fun a => w.pure (f a)

theorem foldlM {f : β → α → Typing β} (h : ∀ b a, K (f b a)) (as : List α) (b : β) : K (as.foldlM f b) := by
  induction as generalizing b with
  | nil => exact w.pure b
  | cons a as ih => exact w.bind (h b a) ih

theorem mapM (h : ∀ a ∈ as, K (f a)) : K (as.mapM f) := by
  induction as with
  | nil => exact w.pure []
  | cons a as ih => grind [w.bind, w.pure]

theorem filterMapM {f : α → Typing (Option β)} (h : ∀ a ∈ as, K (f a)) : K (as.filterMapM f) := by
  induction as with
  | nil => exact w.pure []
  | cons a as ih => grind [w.bind, w.pure]

end Composes

/-- With this patience it can be said of every question about types. -/
structure Certain (p : Program) (K : ∀ {α : Type}, Typing α → Prop) (fuel : Nat) : Prop where
  expression : ∀ n, K (p.expressionTypeIn fuel n)
  self : ∀ n, K (p.selfTypeIn fuel n)
  standard : ∀ name, K (p.standardTypeIn fuel name)
  numeric : ∀ n, K (p.numericContextIn fuel n)
  expected : ∀ n, K (p.expectedTypeIn fuel n)
  argument : ∀ n i, K (p.argumentTypeIn fuel n i)
  declaration : ∀ n, K (p.declarationTypeIn fuel n)
  typeExpression : ∀ n, K (p.typeExpressionTypeIn fuel n)
  behaviours : ∀ t, K (p.behavioursIn fuel t)
  object : ∀ id args receiver, K (p.objectBehavioursIn fuel id args receiver)
  class_ : ∀ n ∈ p.nodes, K (p.classBehavioursIn fuel n)
  method : ∀ n receiver, K (p.methodBehaviourIn fuel n receiver)
  pattern : ∀ m receiver result n, K (p.patternBehaviourIn fuel m receiver result n)
  message : ∀ n, K (p.messageBehaviourIn fuel n)

/-- It goes on from questions to those whose answers are remembered. -/
structure Carries (p : Program) (K : ∀ {α : Type}, Typing α → Prop) : Prop extends Composes K where
  type (n : Node) {work : Typing Ty} (h : K work) : K (Memo.type n work)
  class_ {fuel : Nat} (h : p.Certain K fuel) (n : Node) (hn : n ∈ p.nodes) : K (p.classBehavioursIn (fuel + 1) n)

theorem Carries.certain (w : p.Carries K) (fuel : Nat) : p.Certain K fuel := by
  induction fuel with
  | zero => constructor <;> intros <;> exact w.pure _
  | succ fuel h =>
    constructor <;> intros
    case expression =>
      rw [expressionTypeIn]
      refine w.type _ ?_
      repeat' first
        | exact w.pure _
        | exact h.expression _
        | exact h.self _
        | exact h.standard _
        | refine w.bind (h.declaration _) fun _ => ?_
        | refine w.bind (h.message _) fun _ => ?_
        | refine w.bind (h.numeric _) fun _ => ?_
        | split
    case self => rw [selfTypeIn]; split <;> first | exact w.pure _ | exact w.bind (h.declaration _) fun _ => w.pure _
    case standard => rw [standardTypeIn]; split <;> first | exact w.pure _ | exact h.declaration _
    case numeric => rw [numericContextIn]; exact w.bind (h.expected _) fun _ => by split <;> exact w.pure _
    case expected =>
      rw [expectedTypeIn]
      repeat' first
        | exact w.pure _
        | exact w.map _ (h.typeExpression _)
        | exact w.map _ (h.declaration _)
        | exact h.argument _ _
        | exact h.expected _
        | split
        | dsimp only
    case argument => rw [argumentTypeIn]; exact w.bind (h.message _) fun _ => by split <;> exact w.pure _
    case declaration =>
      rw [declarationTypeIn]
      refine w.type _ ?_
      repeat' first
        | exact w.pure _
        | exact h.typeExpression _
        | exact h.expression _
        | exact w.bind (w.mapM fun a _ => h.declaration a) fun _ => w.pure _
        | split
    case typeExpression =>
      rw [typeExpressionTypeIn]
      refine w.type _ ?_
      repeat' first
        | exact w.pure _
        | exact h.self _
        | refine w.bind (w.mapM fun a _ => h.typeExpression a) fun _ => ?_
        | exact w.bind (h.declaration _) fun _ => w.pure _
        | split
    case behaviours =>
      unfold behavioursIn
      repeat' first
        | exact w.pure _
        | exact h.object _ _ _
        | exact h.behaviours _
        | exact w.bind (h.standard _) h.behaviours
        | refine w.filterMapM fun _ _ => ?_
        | exact h.pattern _ _ _ _
        | split
    case object =>
      rw [objectBehavioursIn]
      split
      · exact w.pure _
      · exact w.bind (h.class_ _ (Array.mem_of_getElem? ‹_›)) fun _ => w.pure _
    case class_ n hn => exact w.class_ h n hn
    case method =>
      rw [methodBehaviourIn]
      repeat' first
        | exact w.pure _
        | refine w.bind (h.pattern _ _ _ _) fun _ => ?_
        | exact w.bind (h.typeExpression _) fun _ => w.pure _
        | exact w.bind (h.expression _) fun _ => w.pure _
        | split
    case pattern =>
      rw [patternBehaviourIn]
      split
      · split <;> exact w.pure _
      · dsimp only
        split
        · exact w.bind (h.declaration _) fun _ => by split <;> exact w.pure _
        · split <;> exact w.pure _
      · refine w.bind (w.mapM fun _ _ => h.declaration _) fun _ => ?_
        dsimp only
        split <;> exact w.pure _
      · exact w.pure _
    case message =>
      rw [messageBehaviourIn]
      split
      · exact w.pure _
      split
      · exact w.bind (h.expression _) fun t => w.bind (h.behaviours t) fun _ => w.pure _
      · exact w.pure _

theorem Composes.class_work (w : Composes K) {fuel : Nat} (h : p.Certain K fuel) (c : Node) : ∃ work, K work ∧
    p.classBehavioursIn (fuel + 1) c = if !c.shape.isClass then Pure.pure [] else Memo.classBehaviours c work := by
  refine ⟨_, w.bind (h.declaration _) fun declared => w.bind (w.filterMapM fun m _ => h.method m declared)
    fun _ => w.foldlM (fun found t => w.bind (h.typeExpression t) fun _ => ?_) _ _, by rw [classBehavioursIn]⟩
  repeat' first
    | exact w.pure _
    | exact w.bind (h.class_ _ (Array.mem_of_getElem? ‹_›)) fun _ => w.pure _
    | split

theorem composes_sure (p : Program) : Composes p.Sure := ⟨Sure.pure, Sure.bind⟩

theorem carries_sure (p : Program) : p.Carries p.Sure where
  toComposes := p.composes_sure
  type := Sure.type
  class_ h c _ := by
    obtain ⟨work, hwork, heq⟩ := p.composes_sure.class_work h c
    rw [heq]
    split
    · exact .pure _
    · exact .classBehaviours c hwork

theorem certain (p : Program) (fuel : Nat) : p.Certain p.Sure fuel := p.carries_sure.certain fuel

end Program

/-! ### Nodes that are looked up -/

namespace Forest

variable {f : Forest} {n c : Node}

theorem mem_of_node? {i : Nat} (h : f.node? i = some n) : n ∈ f.nodes := Array.mem_of_getElem? h

theorem mem_of_mem_children (h : c ∈ f.children n) : c ∈ f.nodes := by
  obtain ⟨i, -, h⟩ := mem_filterMap.mp h
  exact mem_of_node? h

theorem mem_of_part? {q : Shape → Bool} (h : f.part? q n = some c) : c ∈ f.nodes :=
  mem_of_mem_children (mem_of_find?_eq_some h)

theorem mem_of_parent? (h : f.parent? n = some c) : c ∈ f.nodes := by
  obtain ⟨i, -, h⟩ := Option.bind_eq_some_iff.mp h
  exact mem_of_node? h

theorem mem_of_mem_within (h : c ∈ f.within n) : c ∈ f.nodes := by
  obtain ⟨i, -, -, h⟩ := mem_extract.mp h
  exact Array.mem_of_getElem? h

theorem mem_of_mem_all (h : n ∈ f.all) : n ∈ f.nodes := by
  obtain ⟨r, -, h⟩ := mem_flatMap.mp h
  exact mem_of_mem_within h

theorem mem_of_mem_upFrom {i : Nat} (h : n ∈ f.upFrom i) : n ∈ f.nodes := by
  fun_induction f.upFrom i with
  | case1 => cases h
  | case2 i m hm => exact mem_singleton.mp h ▸ mem_of_node? hm
  | case3 i m hm q _ _ ih => grind [mem_of_node?]
  | case4 i m hm => exact mem_singleton.mp h ▸ mem_of_node? hm

theorem mem_of_moduleDeclaration {e : Bool × Node} (h : e ∈ f.moduleDeclarations n) : e.2 ∈ f.nodes := by
  unfold moduleDeclarations at h
  split at h
  · obtain ⟨c, hc, h⟩ := mem_filterMap.mp h
    split at h
    · cases h
    · cases h
    · obtain ⟨d, hd, rfl⟩ := Option.map_eq_some_iff.mp h
      exact mem_of_mem_children (mem_of_mem_head? hd)
    · cases h
      exact mem_of_mem_children hc
  · cases h

theorem mem_of_imported? (h : f.imported? n = some c) : c ∈ f.nodes := by
  unfold imported? at h
  simp only [Option.bind_eq_bind, Option.bind_eq_some_iff] at h
  obtain ⟨-, -, q, -, name, -, h⟩ := h
  obtain ⟨m, -, h⟩ := exists_of_findSome?_eq_some h
  obtain ⟨e, he, rfl⟩ := mem_map.mp (mem_of_find?_eq_some h)
  exact mem_of_moduleDeclaration he

theorem mem_of_inScope? {name : String} {k : NameKind} (h : f.inScope? name k n = some c) : c ∈ f.nodes := by
  unfold inScope? at h
  obtain h | ⟨-, h⟩ := Option.or_eq_some_iff.mp h
  · have h := mem_of_find?_eq_some h
    unfold scopeParameters typeParameters at h
    split at h
    · cases hparent : f.parent? n with
      | none => simp [hparent] at h
      | some q =>
        simp only [hparent, Option.map_some, Option.getD_some] at h
        split at h
        · cases hpart : f.part? (· == .typeParameterList) q with
          | none => simp [hpart] at h
          | some l => grind [mem_of_mem_children]
        · cases h
    · cases h
  · obtain ⟨d, hd, h⟩ := exists_of_findSome?_eq_some h
    have hmem : d ∈ f.nodes := by
      unfold scopeNodes at hd
      split at hd
      · grind [mem_of_mem_within, mem_of_mem_walk]
      · exact mem_of_mem_within (mem_of_mem_walk hd)
    unfold meaning? at h
    split at h
    · split at h
      · cases himported : f.imported? d with
        | none =>
          rw [himported] at h
          cases h
          exact hmem
        | some i => grind [mem_of_imported?]
      · cases h
    · grind

def Numbered (nodes : Array Node) : Prop := ∀ (i : Nat) (n : Node), nodes[i]? = some n → n.id = i

mutual

theorem Numbered.place {nodes : Array Node} (h : Numbered nodes) (parent : Option Nat) :
    (t : Tree) → Numbered (t.place parent nodes)
  | .node shape span children => by
    rw [Tree.place]
    refine Numbered.placeAll (fun i n hn => ?_) _ children
    rw [Array.getElem?_push] at hn
    split at hn
    · cases hn
      simp [*]
    · exact h i n hn

theorem Numbered.placeAll {nodes : Array Node} (h : Numbered nodes) (parent : Option Nat) :
    (ts : List Tree) → Numbered (Tree.placeAll parent nodes ts)
  | [] => h
  | t :: ts => by
    rw [Tree.placeAll]
    exact Numbered.placeAll (Numbered.place h parent t) parent ts

end

theorem numbered_ofDocuments (ds : List Document) : Numbered (ofDocuments ds).nodes := by
  have hfold (f : Forest) (h : Numbered f.nodes) : Numbered (ds.foldl Forest.plant f).nodes := by
    induction ds generalizing f with
    | nil => exact h
    | cons d ds ih => exact ih _ (h.place none d.tree)
  exact hfold empty fun i n h => by simp [empty] at h

end Forest

namespace Program

open Memo

variable {p : Program} {n t : Node}

/-- A program as it is made of documents, whatever they hold. -/
structure Laid (p : Program) : Prop where
  numbered : Forest.Numbered p.nodes
  globals : p.globals = p.globalNames
  library : p.library = p.libraryNames.reverse

theorem laid_ofDocuments (ds : List Document) : (ofDocuments ds).Laid := ⟨Forest.numbered_ofDocuments ds, rfl, rfl⟩

theorem Laid.node?_id (hp : p.Laid) (hn : n ∈ p.nodes) : p.node? n.id = some n := by
  obtain ⟨i, hi⟩ := Array.mem_iff_getElem?.mp hn
  rw [hp.numbered i n hi]
  exact hi

theorem Laid.mem_of_declaration? (hp : p.Laid) {k : NameKind} (h : p.declaration? n k = some t) : t ∈ p.nodes := by
  have hclosest (h : p.closestClass? n = some t) : t ∈ p.nodes :=
    Forest.mem_of_mem_upFrom (mem_of_find?_eq_some h)
  unfold declaration? at h
  split at h
  · exact hclosest h
  · exact hclosest h
  · obtain ⟨name, -, h⟩ := Option.bind_eq_some_iff.mp h
    obtain h | ⟨-, h⟩ := Option.or_eq_some_iff.mp h
    · obtain ⟨scope, -, h⟩ := exists_of_findSome?_eq_some h
      exact Forest.mem_of_inScope? h
    · obtain h | ⟨-, h⟩ := Option.or_eq_some_iff.mp h
      · have h := mem_of_lookup (Option.filter_eq_some_iff.mp h).1
        rw [hp.globals] at h
        obtain ⟨m, -, h⟩ := mem_flatMap.mp h
        obtain ⟨e, he, h⟩ := mem_filterMap.mp h
        obtain ⟨_, _, heq⟩ := Option.map_eq_some_iff.mp h
        cases heq
        exact Forest.mem_of_moduleDeclaration he
      · have h := mem_of_lookup h
        rw [hp.library, mem_reverse] at h
        obtain ⟨r, -, h⟩ := mem_flatMap.mp h
        obtain ⟨c, hc, h⟩ := mem_filterMap.mp h
        obtain ⟨_, _, heq⟩ := Option.map_eq_some_iff.mp h
        grind [Forest.mem_of_mem_within]

/-! ### Usages -/

/-- A tidy memory in which all is remembered that was remembered in another. -/
def From (p : Program) (base m : Memo) : Prop := Tidy p m ∧ Later p base m

variable {base : Memo}

theorem Steady.keeps {α : Type} {x : Typing α} (h : p.Steady x) : Keeps (p.From base) x fun _ => True := fun m hm =>
  ⟨trivial, (h m hm.1).1, hm.2.trans (h m hm.1).2⟩

theorem solid_of_shape {q : Shape → Bool} (hq : ∀ w, q (.symbol w) = false) (hn : n ∈ p.nodes) (h : q n.shape) :
    p.Solid n := by
  refine ⟨hn, Bool.eq_false_iff.mpr fun hs => ?_⟩
  obtain ⟨w, hw⟩ := Forest.exists_symbol hs
  simp [hw, hq w] at h

theorem solid_of_mem_matching {q : Shape → Bool} (hq : ∀ w, q (.symbol w) = false) (h : n ∈ p.matching q) : p.Solid n :=
  solid_of_shape hq (Forest.mem_of_mem_all (mem_filter.mp h).1) (mem_filter.mp h).2

theorem sure_uses (p : Program) (k : NameKind) :
    p.Sure (p.uses k) ∧ ∀ base, Keeps (p.From base) (p.uses k) (· = p.resolved k) := by
  have hrun (m : Memo) (hm : Tidy p m) : ((p.uses k).run m).1 = p.resolved k ∧ p.From m ((p.uses k).run m).2 := by
    unfold uses
    simp only [StateT.run_bind, StateT.run_get, pure_bind]
    cases h : m.uses.lookup k with
    | some found => exact ⟨hm.uses k found h, hm, .refl m⟩
    | none =>
      refine ⟨rfl, ⟨hm.size, fun k' found hk => ?_, hm.members⟩, .refl _, .refl _, fun _ _ _ _ h => h⟩
      have hk : List.lookup k' ((k, p.resolved k) :: m.uses) = some found := hk
      rw [lookup_cons] at hk
      split at hk
      · rename_i heq
        cases hk
        rw [eq_of_beq heq]
      · exact hm.uses k' found hk
  refine ⟨⟨fun m hm => (hrun m hm).2, fun m m' hm hm' _ => (hrun m' hm').1.trans (hrun m hm).1.symm⟩,
    fun base m hm => ?_⟩
  obtain ⟨heq, htidy, hlater⟩ := hrun m hm.1
  exact ⟨heq, htidy, hm.2.trans hlater⟩

theorem solid_of_mem_references {k : NameKind} (h : t ∈ p.references n k) : p.Solid t := by
  have hdirect {d : Node} (h : t ∈ p.directReferences (p.resolved k) d) : p.Solid t := by
    obtain ⟨scope, -, h⟩ := mem_flatMap.mp h
    obtain ⟨e, he, h⟩ := mem_filterMap.mp h
    obtain ⟨r, hr, rfl⟩ := mem_map.mp he
    simp only at h
    split at h
    · cases h
      exact solid_of_mem_matching (fun w => by cases k <;> rfl) hr
    · cases h
  grind [references, referencesAmong]

theorem keeps_referencesTo (p : Program) (n : Node) (k : NameKind) :
    Keeps (p.From base) (p.referencesTo n k) fun ns => ∀ c ∈ ns, p.Solid c := by
  refine .bind ((sure_uses p k).2 base) fun found hfound => .pure fun c hc => ?_
  rw [hfound] at hc
  exact solid_of_mem_references hc

theorem solid_of_mem_importsNaming (h : t ∈ p.importsNaming n) : p.Solid t := by
  unfold importsNaming at h
  repeat' split at h
  all_goals first | cases h | exact solid_of_mem_matching (fun w => rfl) (mem_filter.mp h).1

theorem keeps_methodReferences (p : Program) (n : Node) :
    Keeps (p.From base) (p.methodReferences n) fun ns => ∀ c ∈ ns, p.Solid c := by
  have haux (f : Node → Typing Bool) (hf : ∀ a, Keeps (p.From base) (f a) fun _ => True) (as acc : List Node)
      (has : ∀ a ∈ as, p.Solid a) (hacc : ∀ a ∈ acc, p.Solid a) :
      Keeps (p.From base) (filterAuxM f as acc) fun ns => ∀ c ∈ ns, p.Solid c := by
    induction as generalizing acc with
    | nil => exact .pure hacc
    | cons a as ih =>
      rw [filterAuxM]
      refine .bind (hf a) fun b _ => ih _ (fun c hc => has c (.tail a hc)) fun c hc => ?_
      grind
  unfold methodReferences filterM
  refine .bind (haux _ (fun m => ?_) _ [] (fun m hm => solid_of_mem_matching (fun w => rfl) hm) (by simp)) fun ns hns =>
    .pure fun c hc => hns c (mem_reverse.mp hc)
  exact ((((p.certain _).message m).bind fun _ => .pure _).bind fun _ => .pure _).steady.keeps

theorem Laid.keeps_usageTarget (hp : p.Laid) (hn : n ∈ p.nodes) :
    Keeps (p.From base) (p.usageTarget n) fun o => ∀ t ∈ o, t ∈ p.nodes := by
  refine Program.keeps_usageTarget hn (fun _ ht => Forest.mem_of_imported? ht) (fun _ _ ht => hp.mem_of_declaration? ht)
    (fun _ _ _ h => Forest.mem_of_parent? h)
    (.bind ((p.certain _).message n).steady.keeps fun o _ => .pure fun t ht => ?_)
  obtain ⟨b, -, ht⟩ := Option.bind_eq_some_iff.mp ht
  exact Forest.mem_of_node? ht

/-- What is written down about nodes that are no names, or for which nothing was written down, leaves the names
alone. -/
theorem keeps_setUsage {u : Option Usage} (hu : p.Firm u)
    (hn : ∀ s ∈ p.nodes, s.shape.isSymbol → s.id = n.id → ∀ v, base.usages[s.id]? ≠ some (some v)) :
    Keeps (p.From base) (setUsage u n) fun _ => True := by
  rintro m ⟨hm, hlater⟩
  refine ⟨trivial, ⟨Array.size_setIfInBounds.trans hm.size, hm.uses, fun i o h => ?_⟩,
    hlater.types, hlater.behaviours, fun s hs hw v h => ?_⟩
  · have h : (m.usages.setIfInBounds n.id (some u))[i]? = some (some o) := h
    rw [Array.getElem?_setIfInBounds] at h
    split at h
    · grind
    · exact hm.members i o h
  · show (m.usages.setIfInBounds n.id (some u))[s.id]? = _
    rw [Array.getElem?_setIfInBounds_ne fun heq => hn s hs hw heq.symm v h]
    exact hlater.usages s hs hw v h

/-- A question whose answer is remembered as the usage of a node. -/
def Notes (p : Program) (base : Memo) (n : Node) (x : Typing (Option Usage)) : Prop :=
  ∀ m, p.From base m → p.From base (x.run m).2 ∧ p.Firm (x.run m).1 ∧
    (x.run m).2.usages[n.id]? = some (some (x.run m).1)

theorem Notes.bind {α : Type} {x : Typing α} {f : α → Typing (Option Usage)} {Q : α → Prop}
    (hx : Keeps (p.From base) x Q) (hf : ∀ a, Q a → p.Notes base n (f a)) : p.Notes base n (x >>= f) := fun m hm =>
  hf _ (hx m hm).1 _ (hx m hm).2

theorem Laid.notes_usageIn (hp : p.Laid) {fuel : Nat}
    (hrec : ∀ t ∈ p.nodes, Keeps (p.From base) (p.usageIn fuel t) p.Firm)
    (hn : n ∈ p.nodes) : p.Notes base n (p.usageIn (fuel + 1) n) := by
  intro m hm
  unfold usageIn
  simp only [StateT.run_bind, StateT.run_get, pure_bind]
  cases hj : m.usages[n.id]?.join with
  | some o =>
    have hj := Option.join_eq_some_iff.mp hj
    exact ⟨hm, hm.1.members _ o hj, hj⟩
  | none =>
    have hset {u : Option Usage} (hu : p.Firm u) : Keeps (p.From base) (setUsage u n) fun _ => True :=
      keeps_setUsage hu fun s hs hw hid v hv => by simp [← hid, hm.2.usages s hs hw v hv] at hj
    have hmembers (u : Usage) (hu : p.Firm (some u)) :
        Keeps (p.From base) (u.members.forM (setUsage (some u))) fun _ => True := by
      generalize hks : u.members = ks
      have hsolid : ∀ k ∈ ks, p.Solid k := hks ▸ hu u rfl
      clear hks
      induction ks with
      | nil => exact .pure trivial
      | cons k ks ih =>
        refine .bind (keeps_setUsage hu fun s hs hw hid => ?_) fun _ _ => ih fun c hc => hsolid c (.tail k hc)
        obtain ⟨hmem, hshape⟩ := hsolid k mem_cons_self
        rw [Option.some.inj ((hp.node?_id hs).symm.trans (hid ▸ hp.node?_id hmem)), hshape] at hw
        cases hw
    have hlast {u : Option Usage} (hu : p.Firm u) : p.Notes base n (do setUsage u n; return u) := fun m hm => by
      refine ⟨(hset hu m hm).2, hu, ?_⟩
      have hlt : n.id < m.usages.size := hm.1.size ▸ (Array.getElem?_eq_some_iff.mp (hp.node?_id hn)).1
      show (m.usages.setIfInBounds n.id (some u))[n.id]? = some (some u)
      rw [Array.getElem?_setIfInBounds_self_of_lt hlt]
    have hrest (u : Option Usage) (hu : p.Firm u) : p.Notes base n (noteUsage n u) := by
      cases u with
      | none => exact hlast hu
      | some u => exact .bind (hmembers u hu) fun _ _ => hlast hu
    have hfirm {ns is : List Node} (hself : p.Solid n) (hns : ∀ k ∈ ns, p.Solid k) (his : ∀ k ∈ is, p.Solid k) :
        p.Firm (some ⟨n, ns, is⟩) := by
      intro u hu k hk
      cases hu
      obtain rfl | hk := mem_cons.mp hk
      · exact hself
      · exact (mem_append.mp hk).elim (hns k) (his k)
    refine (?_ : p.Notes base n _) m hm
    simp only
    split
    · rename_i hshape
      exact .bind (keeps_referencesTo p n _) fun ns hns => hrest _
        (hfirm (solid_of_shape (fun _ => rfl) hn hshape) hns fun k hk => solid_of_mem_importsNaming hk)
    · split
      · rename_i hshape
        exact .bind (keeps_methodReferences p n) fun ns hns => hrest _
          (hfirm (solid_of_shape (q := fun s => s.isMethod || s.isInitializer) (fun _ => rfl) hn hshape) hns (by simp))
      · refine .bind (hp.keeps_usageTarget hn) fun o ho => ?_
        cases o with
        | none => exact hrest none fun u hu => by cases hu
        | some t => exact .bind (hrec t (ho t rfl)) hrest

theorem Laid.keeps_usageIn (hp : p.Laid) (fuel : Nat) (hn : n ∈ p.nodes) :
    Keeps (p.From base) (p.usageIn fuel n) p.Firm := by
  induction fuel generalizing n with
  | zero => exact .pure fun u hu => by cases hu
  | succ fuel ih =>
    intro m hm
    obtain ⟨hfrom, hfirm, -⟩ := hp.notes_usageIn (fun t ht => ih ht) hn m hm
    exact ⟨hfirm, hfrom⟩

theorem Laid.steady_usage (hp : p.Laid) (hn : n ∈ p.nodes) : p.Steady (p.usage n) := fun m hm =>
  (hp.keeps_usageIn 8 hn m ⟨hm, .refl m⟩).2

theorem Laid.sure_usage (hp : p.Laid) (hn : n ∈ p.nodes) (hs : n.shape.isSymbol) : p.Sure (p.usage n) := by
  have hnotes (m : Memo) (hm : Tidy p m) := hp.notes_usageIn (fun t ht => hp.keeps_usageIn 7 ht) hn m ⟨hm, .refl m⟩
  refine ⟨hp.steady_usage hn, fun m m' hm hm' hlater => ?_⟩
  have hkept := (hnotes m' hm').1.2.usages n hn hs _ (hlater.usages n hn hs _ (hnotes m hm).2.2)
  exact Option.some.inj (Option.some.inj ((hnotes m' hm').2.2.symm.trans hkept))

theorem Laid.walk (hp : p.Laid) : p.Walk False (@fun α (x : Typing α) Q => p.Sure x ∧ ∀ m, Q (x.run m).1) where
  grown := nofun
  pure h := ⟨.pure _, fun _ => h⟩
  bind hx hf := ⟨hx.1.run_bind fun m => (hf _ (hx.2 m)).1, fun m => (hf _ (hx.2 m)).2 _⟩
  expression _ := ⟨(p.certain _).expression _, fun _ => nofun⟩
  declaration _ := ⟨(p.certain _).declaration _, fun _ => nofun⟩
  typeExpression _ := ⟨(p.certain _).typeExpression _, fun _ => nofun⟩
  standard _ := ⟨(p.certain _).standard _, fun _ => nofun⟩
  behaviours _ := ⟨(p.certain _).behaviours _, fun _ => nofun⟩
  message _ := ⟨(p.certain _).message _, fun _ => nofun⟩
  uses k := ⟨(sure_uses p k).1, fun _ => trivial⟩
  usage {k n s} hn hs := by
    have hname : p.name? n = some s := by
      have hn := (mem_filter.mp hn).2
      unfold Forest.symbol? at hs
      cases hshape : n.shape <;> cases k <;> simp_all [NameKind.refers]
    exact ⟨hp.sure_usage (Forest.mem_of_part? hname) (Forest.part?_mem hname).2, fun _ => trivial⟩

theorem Laid.sure_runAll (hp : p.Laid) : p.Sure (Check.runAll Check.all p) := hp.walk.runAll.1

theorem Laid.steady_usageAround (hp : p.Laid) (uri : Uri) (l : Location) : p.Steady (p.usageAround uri l) := by
  have hmem : ∀ n ∈ p.around uri l, n ∈ p.nodes := fun n hn => by
    grind [Forest.around, Forest.mem_of_node?]
  unfold usageAround
  generalize p.around uri l = ns at hmem
  generalize (none : Option Usage) = o
  induction ns generalizing o with
  | nil => exact (Sure.pure o).steady
  | cons n ns ih =>
    refine .bind ?_ fun m => ih (fun c hc => hmem c (.tail n hc)) _
    cases o with
    | some u => exact (Sure.pure _).steady
    | none => exact hp.steady_usage (hmem n mem_cons_self)

end Program

/-! ### Histories -/

namespace Diagnostic

instance : Std.TransCmp order :=
  inferInstanceAs (Std.TransCmp (compareLex (compareOn fun d : Diagnostic => d.span.uri) <|
    compareLex (compareOn fun d => d.span.start.offset) <| compareLex (compareOn fun d => d.span.stop.offset) <|
    compareLex (fun a b => compareOn (fun d : Diagnostic => d.severity.rank) b a) <|
    compareLex (compareOn fun d => d.code.number) (compareOn fun d => d.message)))

theorem filter_sort (q : Diagnostic → Bool) (ds : List Diagnostic) : (sort ds).filter q = sort (ds.filter q) := by
  have htrans (a b c : Diagnostic) : (order a b).isLE → (order b c).isLE → (order a c).isLE :=
    Std.TransCmp.isLE_trans
  have htotal (a b : Diagnostic) : ((order a b).isLE || (order b a).isLE) := by
    have hswap : order b a = (order a b).swap := Std.OrientedCmp.eq_swap
    rw [hswap]
    cases order a b <;> rfl
  induction ds with
  | nil => simp [sort]
  | cons d ds ih =>
    unfold sort at ih ⊢
    obtain ⟨low, high, hsort, hrest, hlow⟩ := mergeSort_cons htrans htotal d ds
    by_cases hq : q d
    · obtain ⟨low', high', hsort', hrest', hlow'⟩ := mergeSort_cons htrans htotal d (ds.filter q)
      have hsorted := hsort ▸ pairwise_mergeSort htrans htotal (d :: ds)
      have hsorted' := hsort' ▸ pairwise_mergeSort htrans htotal (d :: ds.filter q)
      have hhigh := (pairwise_cons.mp (pairwise_append.mp hsorted).2.1).1
      have hhigh' := (pairwise_cons.mp (pairwise_append.mp hsorted').2.1).1
      have hsame : low.filter q ++ high.filter q = low' ++ high' := by rw [← filter_append, ← hrest, ih, hrest']
      -- What comes before `d` are the remarks that are strictly less, with or without the others.
      have hsplit {as bs : List Diagnostic} (ha : ∀ b ∈ as, (!(order d b).isLE))
          (hb : ∀ b ∈ bs, (order d b).isLE) :
          (as ++ bs).filter (fun b => !(order d b).isLE) = as := by
        rw [filter_append, filter_eq_self.mpr ha, filter_eq_nil_iff.mpr fun b h => by simp [hb b h],
          append_nil]
      have hlows : low.filter q = low' := by
        rw [← hsplit hlow' hhigh', ← hsame]
        exact (hsplit (fun b hb => hlow b (mem_filter.mp hb).1) fun b hb => hhigh b (mem_filter.mp hb).1).symm
      simp_all
    · grind

end Diagnostic

namespace Server

open Memo Program

inductive Step where
  | set (source : Source)
  | replace (uri : Uri) (text : Bytes)
  | change (uri : Uri) (start stop : Int) (text : Bytes)
  | changeRange (uri : Uri) (start stop : Position) (text : Bytes)
  | close (uri : Uri)
  | usageAt (uri : Uri) (l : Location)
  | diagnostics

def after (s : Server) : Step → Server
  | .set source => s.set source
  | .replace uri text => (s.replace uri text).getD s
  | .change uri start stop text => (s.change uri start stop text).getD s
  | .changeRange uri start stop text => (s.changeRange uri start stop text).getD s
  | .close uri => s.close uri
  | .usageAt uri l => (s.usageAt uri l).2
  | .diagnostics => s.diagnostics.2

/-- The places that were asked about since the documents changed and before the remarks were asked for, and whether
those were. -/
structure Trail where
  asked : List (Uri × Location)
  reported : Bool

def Trail.next (t : Trail) : Step → Trail
  | .usageAt uri l => if t.reported then t else ⟨t.asked ++ [(uri, l)], false⟩
  | .diagnostics => ⟨t.asked, true⟩
  | _ => t

def history (library : List Source) (max : Int) (steps : List Step) : Server × Trail :=
  steps.foldl (fun c e => (c.1.after e, if (c.1.after e).version = c.1.version then c.2.next e else ⟨[], false⟩))
    (start library max, ⟨[], false⟩)

def program (s : Server) : Program := ofDocuments s.opened

def memo (s : Server) : Memo := (s.analysis.map (·.2)).getD (.fresh s.program)

/-- What is remembered after questions about usages, and what is remarked then. -/
def recalled (p : Program) (asked : List (Uri × Location)) : Memo :=
  asked.foldl (fun m q => ((p.usageAround q.1 q.2).run m).2) (.fresh p)

def report (p : Program) (asked : List (Uri × Location)) : List Diagnostic × Memo :=
  (Check.runAll Check.all p).run (recalled p asked)

/-- A server remembers what its trail says, and more only after a report. -/
structure Sync (max : Int) (s : Server) (t : Trail) : Prop where
  max : s.max = max
  sorted : s.opened.Pairwise (·.source.uri < ·.source.uri)
  parsed : ∀ d ∈ s.opened, d = d.source.parse none
  analysis : ∀ a ∈ s.analysis, a.1 = s.program
  tidy : Tidy s.program s.memo
  recalled : t.reported = false → s.memo = recalled s.program t.asked
  later : t.reported → Later s.program (report s.program t.asked).2 s.memo

variable {max : Int} {s s' : Server} {t t' : Trail} {d : Document}

theorem Sync.set (h : Sync max s t) (source : Source) : Sync max (s.set source) ⟨[], false⟩ where
  max := h.max
  sorted := sorted_placeBy h.sorted
  parsed := fun d hd => by
    obtain rfl | hd := mem_placeBy hd
    · grind [Source.parse]
    · exact h.parsed d hd
  analysis := nofun
  tidy := tidy_fresh _
  recalled := fun _ => rfl
  later := nofun

theorem sync_start (library : List Source) (max : Int) : Sync max (start library max) ⟨[], false⟩ :=
  foldlRecOn library Server.set (motive := fun s => Sync max s ⟨[], false⟩)
    ⟨rfl, .nil, nofun, nofun, tidy_fresh _, fun _ => rfl, nofun⟩ fun _ h source _ => h.set source

theorem Sync.edit (h : Sync max s t) {o : Option Server} (ho : ∀ s' ∈ o, ∃ source, s' = s.set source) :
    Sync max (o.getD s) (if (o.getD s).version = s.version then t else ⟨[], false⟩) := by
  cases o with
  | none => simpa using h
  | some s' =>
    obtain ⟨source, rfl⟩ := ho s' rfl
    rw [Option.getD_some, if_neg (by simp [Server.set])]
    exact h.set source

theorem Sync.ask_eq {α : Type} (h : Sync max s t) (q : Program → Typing α) : s.ask q = (((q s.program).run s.memo).1,
      { s with analysis := some (s.program, ((q s.program).run s.memo).2) }) := by
  unfold ask memo
  cases ha : s.analysis with
  | none => rfl
  | some a =>
    obtain ⟨p, m⟩ := a
    obtain rfl : p = s.program := h.analysis _ ha
    rfl

theorem Sync.ask {α : Type} (h : Sync max s t) {q : Program → Typing α} (hq : s.program.Steady (q s.program))
    (hrecalled : t'.reported = false → ((q s.program).run s.memo).2 = Server.recalled s.program t'.asked)
    (hlater : t'.reported → Later s.program (report s.program t'.asked).2 ((q s.program).run s.memo).2) :
    Sync max (s.ask q).2 t' := by
  rw [h.ask_eq]
  refine ⟨h.max, h.sorted, h.parsed, fun a ha => ?_, (hq _ h.tidy).1, hrecalled, hlater⟩
  cases ha
  rfl

theorem Sync.after (h : Sync max s t) (e : Step) :
    Sync max (s.after e) (if (s.after e).version = s.version then t.next e else ⟨[], false⟩) := by
  have hlaid := laid_ofDocuments s.opened
  cases e with
  | set source => exact h.edit (o := some (s.set source)) fun s' hs => ⟨source, (Option.some.inj hs).symm⟩
  | replace uri text =>
    refine h.edit fun s' hs => ?_
    obtain ⟨source, -, rfl⟩ := Option.map_eq_some_iff.mp hs
    exact ⟨_, rfl⟩
  | change uri start stop text =>
    refine h.edit fun s' hs => ?_
    obtain ⟨source, -, rfl⟩ := Option.map_eq_some_iff.mp hs
    exact ⟨_, rfl⟩
  | changeRange uri start stop text =>
    refine h.edit fun s' hs => ?_
    obtain ⟨_, _, hs⟩ := Option.bind_eq_some_iff.mp hs
    obtain ⟨source, -, rfl⟩ := Option.map_eq_some_iff.mp hs
    exact ⟨_, rfl⟩
  | close uri =>
    have hafter : s.after (.close uri) = s.close uri := rfl
    rw [hafter]
    unfold close
    split
    · rw [if_pos rfl]
      exact h
    · rw [if_neg (by simp)]
      exact ⟨h.max, h.sorted.sublist filter_sublist, fun d hd => h.parsed d (mem_filter.mp hd).1, nofun, tidy_fresh _,
        fun _ => rfl, nofun⟩
  | usageAt uri l =>
    have hsteady := hlaid.steady_usageAround uri l
    have hversion : (s.after (.usageAt uri l)).version = s.version := rfl
    rw [if_pos hversion, Trail.next]
    cases hr : t.reported with
    | true =>
      exact h.ask hsteady (fun hf => by simp [hr] at hf) fun _ => (h.later hr).trans (hsteady _ h.tidy).2
    | false =>
      refine h.ask hsteady (fun _ => ?_) nofun
      rw [h.recalled hr]
      simp [Server.recalled]
  | diagnostics =>
    have hsteady := hlaid.sure_runAll.steady
    have hversion : (s.after .diagnostics).version = s.version := rfl
    rw [if_pos hversion]
    refine h.ask (q := Check.runAll Check.all) hsteady nofun fun _ => ?_
    cases hr : t.reported with
    | true => exact (h.later hr).trans (hsteady _ h.tidy).2
    | false =>
      rw [h.recalled hr]
      exact .refl _

theorem sync_history (library : List Source) (max : Int) (steps : List Step) :
    Sync max (history library max steps).1 (history library max steps).2 :=
  foldlRecOn steps _ (motive := fun c : Server × Trail => Sync max c.1 c.2) (sync_start library max)
    fun _ h e _ => h.after e

theorem Sync.diagnosticsIn (h : Sync max s t) (order : List Document) :
    (s.diagnosticsIn order).1 = s.documents.map fun uri => (uri, (Diagnostic.sort (Diagnostic.cap max
      (order.flatMap (·.remarks) ++ (report s.program t.asked).1))).filter (·.uri == uri)) := by
  have htidy : Tidy s.program (Server.recalled s.program t.asked) :=
    foldlRecOn t.asked _ (motive := Tidy s.program) (tidy_fresh _) fun m hm q _ =>
      ((laid_ofDocuments s.opened).steady_usageAround q.1 q.2 m hm).1
  have hfound : ((Check.runAll Check.all s.program).run s.memo).1 = (report s.program t.asked).1 := by
    cases hr : t.reported with
    | true => exact (laid_ofDocuments s.opened).sure_runAll.again _ _ htidy h.tidy (h.later hr)
    | false =>
      rw [h.recalled hr]
      rfl
  unfold Server.diagnosticsIn
  rw [h.ask_eq, hfound, ← h.max]
  rfl

theorem Sync.opened_eq (h : Sync max s t) (h' : Sync max s' t') (hs : ∀ uri, s.source? uri = s'.source? uri) :
    s.opened = s'.opened := by
  have hsorted {s : Server} {t : Trail} (h : Sync max s t) : s.sources.Pairwise (·.uri < ·.uri) :=
    pairwise_map.mpr h.sorted
  have hmem {s : Server} {t : Trail} (h : Sync max s t) (source : Source) :
      source ∈ s.sources ↔ s.source? source.uri = some source := by
    refine ⟨fun hm => ?_, mem_of_find?_eq_some⟩
    obtain ⟨before, later, heq⟩ := append_of_mem hm
    refine find?_eq_some_iff_append.mpr ⟨by simp, before, later, heq, fun a ha => ?_⟩
    have hlt := (pairwise_append.mp (heq ▸ hsorted h)).2.2 a ha source mem_cons_self
    simp only [Bool.not_eq_true', beq_eq_false_iff_ne]
    exact fun hab => String.lt_irrefl _ (hab ▸ hlt)
  have hnodup {s : Server} {t : Trail} (h : Sync max s t) : s.sources.Nodup :=
    (hsorted h).imp fun {a b} (hlt : a.uri < b.uri) (hab : a = b) => String.lt_irrefl _ (hab ▸ hlt)
  have hsources : s.sources = s'.sources :=
    List.Perm.eq_of_pairwise (fun _ _ _ _ hab hba => absurd hba (String.lt_asymm hab)) (hsorted h) (hsorted h')
      ((perm_ext_iff_of_nodup (hnodup h) (hnodup h')).mpr fun source => by rw [hmem h, hmem h', hs])
  have hparsed {s : Server} {t : Trail} (h : Sync max s t) : s.opened = s.sources.map (·.parse none) := by
    rw [sources, map_map]
    exact (map_id _).symm.trans (map_congr_left h.parsed)
  rw [hparsed h, hparsed h', hsources]

theorem Sync.filter_remarks (h : Sync max s t) {order : List Document} (ho : order.Perm s.opened) (uri : Uri) :
    (order.flatMap (·.remarks)).filter (·.uri == uri) =
      (s.opened.filter (·.source.uri == uri)).flatMap (·.remarks) := by
  have hone : order.filter (·.source.uri == uri) = s.opened.filter (·.source.uri == uri) := by
    have hperm := ho.filter (·.source.uri == uri)
    have hsub := h.sorted.sublist (filter_sublist (p := fun d => d.source.uri == uri))
    have huri {x : Document} (hx : x ∈ s.opened.filter (·.source.uri == uri)) := eq_of_beq (mem_filter.mp hx).2
    generalize s.opened.filter (·.source.uri == uri) = found at hperm hsub huri
    match found with
    | [] => exact perm_nil.mp hperm
    | [d] => exact perm_singleton.mp hperm
    | d :: e :: ds => grind
  have hremarks : ∀ d ∈ order, ∀ r ∈ d.remarks, r.uri = d.source.uri := fun d hd r hr => by
    rw [h.parsed d (ho.mem_iff.mp hd), Source.remarks_parse] at hr
    exact ((d.source.parse_steady none).1.remarks r (mem_reverse.mp hr)).uri
  rw [← hone]
  clear ho hone
  induction order with
  | nil => rfl
  | cons d ds ih =>
    rw [flatMap_cons, filter_append, ih fun e he => hremarks e (.tail d he)]
    have hd := hremarks d mem_cons_self
    by_cases hu : d.source.uri = uri
    · simp_all
    · simp_all

/-- Two servers that know the same library and end with the same documents make the same remarks, whatever happened
before, if the same places were asked about since the last change and before the first report; so they do if the first
question was for a report. The order in which the documents are gone through does not matter as long as what was
remarked when they were read does not fill the report. -/
theorem diagnosticsIn_eq_of_histories (library : List Source) (max : Int) (steps steps' : List Step)
    (order order' : List Document)
    (hopen : ∀ uri, (history library max steps).1.source? uri = (history library max steps').1.source? uri)
    (hasked : (history library max steps).2.asked = (history library max steps').2.asked)
    (horder : order.Perm (history library max steps).1.opened)
    (horder' : order'.Perm (history library max steps').1.opened)
    (hroom : order = order' ∨ (order.flatMap (·.remarks)).length ≤ Diagnostic.limit max) :
    ((history library max steps).1.diagnosticsIn order).1 =
      ((history library max steps').1.diagnosticsIn order').1 := by
  have h := sync_history library max steps
  have h' := sync_history library max steps'
  have hopened := h.opened_eq h' hopen
  have hprogram := congrArg ofDocuments hopened
  have hdocuments : (history library max steps).1.documents = (history library max steps').1.documents := by
    rw [documents, sources, hopened]
    rfl
  rw [h.diagnosticsIn, h'.diagnosticsIn, program, program, hprogram, hasked, hdocuments]
  obtain rfl | hroom := hroom
  · rfl
  refine map_congr_left fun uri _ => congrArg (uri, ·) ?_
  have hremarks := (h.filter_remarks horder uri).trans (hopened ▸ (h'.filter_remarks horder' uri).symm)
  have hlength := ((horder.trans (hopened ▸ horder'.symm)).flatMap_right (·.remarks)).length_eq
  have hcap (ds found : List Diagnostic) (hd : ds.length ≤ Diagnostic.limit max) :
      Diagnostic.cap max (ds ++ found) = ds ++ found.take (Diagnostic.limit max - ds.length) := by
    rw [Diagnostic.cap, take_append, take_of_length_le hd]
  rw [Diagnostic.filter_sort, Diagnostic.filter_sort, hcap _ _ hroom, hcap _ _ (hlength ▸ hroom), filter_append,
    filter_append, hremarks, hlength]

/-- What is remarked on this source hangs on whether the use of `b` was asked about before. -/
def wavering : Source :=
  .ofString .module "test:a.loa" "class M \x7b\n  a => self b foo.\n  b -> M => self.\n\x7d\n"

theorem diagnosticsIn_eq_of_histories_wavering :
    ((history [] 0 [.set wavering, .diagnostics, .usageAt "test:a.loa" .origin]).1.diagnosticsIn
        [wavering.parse none]).1 =
      ((history [] 0 [.set { wavering with code := [] }, .usageAt "test:a.loa" .origin, .set wavering]).1.diagnosticsIn
        [wavering.parse none]).1 :=
  diagnosticsIn_eq_of_histories [] 0 [.set wavering, .diagnostics, .usageAt "test:a.loa" .origin]
    [.set { wavering with code := [] }, .usageAt "test:a.loa" .origin, .set wavering] [wavering.parse none]
    [wavering.parse none] (fun _ => rfl) rfl (.of_eq rfl) (.of_eq rfl) (.inl rfl)

end Server

end Parlance
