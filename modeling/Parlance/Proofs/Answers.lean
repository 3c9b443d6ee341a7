import Parlance.Proofs.WrittenTypes
/-!
What is remembered about the types of a program, and the invariant of it, which knows what questions are open.
-/
namespace Parlance

open List

/-! ### Questions asked one after the other -/

/-- A step that keeps its state in order, and an answer that is as it should be. -/
def Keeps {σ α : Type} (I : σ → Prop) (x : StateM σ α) (Q : α → Prop) : Prop :=
  ∀ m, I m → Q (x.run m).1 ∧ I (x.run m).2

namespace Keeps

variable {σ α β : Type} {I : σ → Prop} {Q : α → Prop} {R : β → Prop} {x : StateM σ α} {as : List α}

theorem pure {a : α} (h : Q a) : Keeps I (Pure.pure a) Q := fun _ hm => ⟨h, hm⟩

theorem bind {f : α → StateM σ β} (hx : Keeps I x Q) (hf : ∀ a, Q a → Keeps I (f a) R) : Keeps I (x >>= f) R :=
  fun m hm => hf _ (hx m hm).1 _ (hx m hm).2

theorem mono {Q' : α → Prop} (hx : Keeps I x Q) (h : ∀ a, Q a → Q' a) : Keeps I x Q' :=
  fun m hm => ⟨h _ (hx m hm).1, (hx m hm).2⟩

theorem map {f : α → β} (hx : Keeps I x Q) (h : ∀ a, Q a → R (f a)) : Keeps I (f <$> x) R :=
  fun m hm => ⟨h _ (hx m hm).1, (hx m hm).2⟩

theorem mapM {S : α → β → Prop} {f : α → StateM σ β} (h : ∀ a ∈ as, Keeps I (f a) (S a)) :
    Keeps I (as.mapM f) (List.Forall₂ S as) := by
  induction as with
  | nil =>
    rw [mapM_nil]
    exact pure .nil
  | cons a as ih =>
    rw [mapM_cons]
    refine bind (h a mem_cons_self) fun b hb => ?_
    exact bind (ih fun c hc => h c (mem_cons_of_mem a hc)) fun bs hbs => pure (.cons hb hbs)

theorem filterMapM {S : α → Option β → Prop} {f : α → StateM σ (Option β)} (h : ∀ a ∈ as, Keeps I (f a) (S a)) :
    Keeps I (as.filterMapM f) fun bs => ∃ os, List.Forall₂ S as os ∧ bs = os.filterMap id := by
  induction as with
  | nil =>
    rw [filterMapM_nil]
    exact pure ⟨[], .nil, rfl⟩
  | cons a as ih =>
    rw [filterMapM_cons]
    refine bind (h a mem_cons_self) fun o ho => ?_
    have hrest := ih fun c hc => h c (mem_cons_of_mem a hc)
    cases o with
    | none => exact hrest.mono fun bs ⟨os, hos, hbs⟩ => ⟨none :: os, .cons ho hos, hbs⟩
    | some b => exact bind hrest fun bs ⟨os, hos, hbs⟩ => pure ⟨some b :: os, .cons ho hos, by rw [hbs]; rfl⟩

theorem foldlM {S : List α → β → Prop} {f : β → α → StateM σ β} {done : List α} {b : β}
    (hb : S done b) (h : ∀ done a b, a ∈ as → S done b → Keeps I (f b a) (S (done ++ [a]))) :
    Keeps I (as.foldlM f b) (S (done ++ as)) := by
  induction as generalizing done b with
  | nil =>
    rw [foldlM_nil, append_nil]
    exact pure hb
  | cons a as ih => grind [bind, mem_cons_self]

end Keeps

/-! ### What is remembered -/

namespace Program

variable {p : Program}

/-- A method whose behaviour is found without looking into its body. -/
structure IsExplicit (p : Program) (m : Node) : Prop where
  parameters : ∀ d ∈ p.parameters m, p.IsLight d
  result : ∀ r t, p.returnType? m = some r → p.type? r = some t → p.IsSimple t
  body : p.returnType? m = none → p.body? m = none

/-- The parameters of a pattern have types that are written down. -/
def IsLightPattern (p : Program) (q : Node) : Prop := ∀ d ∈ p.patternParameters q, p.IsLight d

/-- The behaviour that a pattern stands for, in the types that are written down. -/
def statedPattern? (p : Program) (method : Nat) (receiver result : Ty) (pattern : Node) : Option Behaviour :=
  match pattern.shape with
  | .unaryPattern => (p.selector? pattern).map fun name => ⟨method, receiver, .unary, [name], [], result⟩
  | .binaryPattern =>
    (p.selector? pattern).map fun op =>
      ⟨method, receiver, .binary, [op], [(p.part? (· == .parameter) pattern).elim .unknown p.written], result⟩
  | .keywordPattern =>
    let keywords := (p.keywordValues pattern).filterMap fun e => p.nameOf? e.1
    if keywords.isEmpty then none
    else some ⟨method, receiver, .keyword, keywords, (p.keywordValues pattern).map fun e => p.written e.2, result⟩
  | _ => none

/-- The behaviour that a method declares, as it is written down. -/
def stated? (p : Program) (m : Node) (receiver : Ty) : Option Behaviour :=
  (p.pattern? m).bind (p.statedPattern? m.id receiver
    (((p.returnType? m).bind fun r => p.type? r).elim .unknown p.written))

/-- The behaviours that a class states and those that it has from some of the types it says it is, if
`f` tells those of other classes. -/
def gather (p : Program) (f : Node → List Behaviour) (c : Node) (ts : List Node) : List Behaviour :=
  ts.foldl (fun found t =>
    match p.written t with
    | .object _ id args =>
      match p.node? id with
      | some s => addBehaviours found ((f s).map (·.subst (p.substitution (some s) args)))
      | none => found
    | _ => found) (addBehaviours [] ((p.methods c).filterMap fun m => p.stated? m (p.written c)))

/-- The behaviours of a class as they are written down in it and in those up to `n` above it. -/
def repertoireIn (p : Program) : Nat → Node → List Behaviour
  | 0, _ => []
  | n + 1, c => p.gather (p.repertoireIn n) c (p.superExpressions c)

/-- The behaviours are those written down, however far one looks. -/
def IsRepertoire (p : Program) (c : Node) (bs : List Behaviour) : Prop :=
  ∃ k, ∀ n, k ≤ n → p.repertoireIn n c = bs

def Is (p : Program) (c s : Node) : Prop := s ∈ p.superClasses c

/-- What a class and those above it say they are is no binding. -/
def NamesClasses (p : Program) (c : Node) : Prop :=
  ∀ k, Relation.ReflTransGen p.Is c k → ∀ t ∈ p.superExpressions k, p.IsSimple t

/-- Everything that the behaviours of a class are made of is written down. -/
structure IsDeclared (p : Program) (c : Node) : Prop where
  methods : ∀ k, Relation.ReflTransGen p.Is c k → ∀ m ∈ p.methods k, p.IsExplicit m
  supers : p.NamesClasses c
  acyclic : ∀ k, Relation.ReflTransGen p.Is c k → ¬ Relation.TransGen p.Is k k

/-- Each behaviour is that of a method of some class, and no selector occurs twice. -/
structure Found (p : Program) (bs : List Behaviour) : Prop where
  over_ : ∀ b ∈ bs, b.Over p
  stems : ∀ b ∈ bs, ∃ c m, p.Has c ∧ m ∈ p.methods c ∧ b.method = m.id ∧
    p.methodSelector? m = some b.selector
  nodup : (bs.map (·.selector)).Nodup

def OwnFirst (p : Program) (c : Node) (bs : List Behaviour) : Prop :=
  ∀ s m, (p.methods c).find? (fun m => p.methodSelector? m == some s) = some m →
    ∃ b ∈ bs, b.selector = s ∧ b.method = m.id

/-- The class or one above it has a method with the selector. -/
def Understands (p : Program) (c : Node) (s : String) : Prop :=
  ∃ k, Relation.ReflTransGen p.Is c k ∧ ∃ m ∈ p.methods k, p.methodSelector? m = some s

/-- A class has only selectors of its own methods and of those above it. -/
def Within (p : Program) (c : Node) (bs : List Behaviour) : Prop := ∀ b ∈ bs, p.Understands c b.selector

def Full (p : Program) (c : Node) (bs : List Behaviour) : Prop :=
  ∀ s, (∃ b ∈ bs, b.selector = s) ↔ p.Understands c s

end Program

def Memo.unasked (m : Memo) : Nat := m.types.countP Option.isNone + m.behaviours.countP Option.isNone

structure Memo.Extends (m base : Memo) : Prop where
  types : ∀ (i : Nat) t, base.types[i]? = some (some t) → m.types[i]? = some (some t)
  behaviours : ∀ (i : Nat) bs, base.behaviours[i]? = some (some bs) → m.behaviours[i]? = some (some bs)

/-- Questions that are being worked out, about classes and about types, what was remembered when the
first of them was asked, and how much patience the rest will take. -/
structure Pending where
  base : Memo
  classes : List Nat
  nodes : List Nat
  budget : Nat

/-- More than the steps from one remembered answer to the next. -/
def Program.stride (p : Program) : Nat := p.nodes.size + 8

/-- What is remembered of a program while some questions are open. -/
structure Memo.Sound (p : Program) (a : Pending) (m : Memo) : Prop where
  types_size : m.types.size = p.nodes.size
  behaviours_size : m.behaviours.size = p.nodes.size
  extends_ : m.Extends a.base
  budget : m.unasked * p.stride ≤ a.budget
  over_ : ∀ (i : Nat) t, m.types[i]? = some (some t) → t.Over p
  written : ∀ n t, p.Has n → p.IsLight n → n.id ∉ a.nodes → m.types[n.id]? = some (some t) → t = p.written n
  found : ∀ (i : Nat) bs, m.behaviours[i]? = some (some bs) → p.Found bs
  within : ∀ c bs, p.Has c → p.NamesClasses c → m.behaviours[c.id]? = some (some bs) → p.Within c bs
  own : ∀ c bs, p.Has c → c.id ∉ a.classes → m.behaviours[c.id]? = some (some bs) → p.OwnFirst c bs
  full : ∀ c bs, p.Has c → p.IsDeclared c → c.id ∉ a.classes → m.behaviours[c.id]? = some (some bs) →
    p.Full c bs ∧ p.IsRepertoire c bs

namespace Memo

variable {p : Program} {a : Pending} {m : Memo} {b i : Nat} {c n : Node} {α : Type} {xs : Array (Option α)}

theorem countP_set_none (h : xs[i]? = some none) (x : α) :
    (xs.setIfInBounds i (some x)).countP Option.isNone + 1 = xs.countP Option.isNone := by
  obtain ⟨hi, hx⟩ := Array.getElem?_eq_some_iff.mp h
  have hpos : 0 < xs.countP Option.isNone := by
    rw [Array.countP_pos_iff]
    exact ⟨none, hx ▸ Array.getElem_mem hi, rfl⟩
  grind

theorem countP_set_le (xs : Array (Option α)) (i : Nat) (x : α) :
    (xs.setIfInBounds i (some x)).countP Option.isNone ≤ xs.countP Option.isNone := by grind

theorem getElem?_set_some {j : Nat} {x y : α}
    (h : (xs.setIfInBounds i (some x))[j]? = some (some y)) : i = j ∧ x = y ∨ i ≠ j ∧ xs[j]? = some (some y) := by
  grind

def withType (m : Memo) (n : Node) (t : Ty) : Memo :=
  { m with types := m.types.setIfInBounds n.id (some t) }

def withBehaviours (m : Memo) (n : Node) (bs : List Behaviour) : Memo :=
  { m with behaviours := m.behaviours.setIfInBounds n.id (some bs) }

theorem unasked_withType (h : m.types[n.id]? = some none) (t : Ty) : (m.withType n t).unasked + 1 = m.unasked := by
  have hcount : (m.withType n t).types.countP Option.isNone + 1 = m.types.countP Option.isNone :=
    countP_set_none h t
  have hsame : (m.withType n t).behaviours = m.behaviours := rfl
  unfold unasked
  rw [hsame]
  omega

theorem unasked_withBehaviours (h : m.behaviours[n.id]? = some none) (bs : List Behaviour) :
    (m.withBehaviours n bs).unasked + 1 = m.unasked := by
  have hcount : (m.withBehaviours n bs).behaviours.countP Option.isNone + 1 =
      m.behaviours.countP Option.isNone := countP_set_none h bs
  have hsame : (m.withBehaviours n bs).types = m.types := rfl
  unfold unasked
  rw [hsame]
  omega

theorem unasked_withType_le (m : Memo) (n : Node) (t : Ty) : (m.withType n t).unasked ≤ m.unasked :=
  Nat.add_le_add_right (countP_set_le m.types n.id t) _

theorem unasked_withBehaviours_le (m : Memo) (n : Node) (bs : List Behaviour) :
    (m.withBehaviours n bs).unasked ≤ m.unasked :=
  Nat.add_le_add_left (countP_set_le m.behaviours n.id bs) _

theorem Sound.spend (h : m.Sound p a) {m' : Memo} (hm : m'.unasked + 1 = m.unasked) :
    m'.unasked * p.stride + p.stride ≤ a.budget := by
  have hmul : m.unasked * p.stride = m'.unasked * p.stride + p.stride := by
    rw [← hm, Nat.succ_mul]
  exact hmul ▸ h.budget

/-- The type of a node that has none counts as unknown while it is worked out. -/
theorem Sound.openType (h : m.Sound p a) (hm : m.types[n.id]? = some none) (hb : a.budget ≤ b + p.stride) :
    (m.withType n .unknown).Sound p { a with nodes := n.id :: a.nodes, budget := b } where
  types_size := (Array.size_setIfInBounds ..).trans h.types_size
  behaviours_size := h.behaviours_size
  extends_ :=
    { types := fun i t hi => by
        have hmi := h.extends_.types i t hi
        grind [withType]
      behaviours := h.extends_.behaviours }
  budget := by
    have hspend := h.spend (unasked_withType hm .unknown)
    grind
  over_ := fun i t hi => by
    rcases getElem?_set_some hi with ⟨-, rfl⟩ | ⟨-, hi⟩
    · exact .unknown
    · exact h.over_ i t hi
  written := fun k t hk hl hnot hi => by
    rw [mem_cons, not_or] at hnot
    rcases getElem?_set_some hi with ⟨heq, -⟩ | ⟨-, hi⟩
    · exact absurd heq.symm hnot.1
    · exact h.written k t hk hl hnot.2 hi
  found := h.found
  within := h.within
  own := h.own
  full := h.full

theorem Sound.closeType {t : Ty}
    (h : m.Sound p { a with nodes := n.id :: a.nodes, budget := b }) (hn : p.Has n) (hb : b ≤ a.budget)
    (hbase : ∀ u, a.base.types[n.id]? ≠ some (some u)) (ht : t.Over p)
    (hd : p.IsLight n → t = p.written n) : (m.withType n t).Sound p a where
  types_size := (Array.size_setIfInBounds ..).trans h.types_size
  behaviours_size := h.behaviours_size
  extends_ :=
    { types := fun i u hi => by
        rw [withType, Array.getElem?_setIfInBounds, if_neg]
        · exact h.extends_.types i u hi
        · rintro rfl
          exact hbase u hi
      behaviours := h.extends_.behaviours }
  budget :=
    Nat.le_trans (Nat.mul_le_mul_right _ (unasked_withType_le m n t)) (Nat.le_trans h.budget hb)
  over_ := fun i u hi => by
    rcases getElem?_set_some hi with ⟨-, rfl⟩ | ⟨-, hi⟩
    · exact ht
    · exact h.over_ i u hi
  written := fun k u hk hl hnot hi => by
    rcases getElem?_set_some hi with ⟨heq, rfl⟩ | ⟨hne, hi⟩
    · obtain rfl := hn.eq_of_id hk heq
      exact hd hl
    · refine h.written k u hk hl ?_ hi
      rw [mem_cons, not_or]
      exact ⟨Ne.symm hne, hnot⟩
  found := h.found
  within := h.within
  own := h.own
  full := h.full

/-- The behaviours of a class that has none count as none while they are worked out. -/
theorem Sound.openClass (h : m.Sound p a) (hm : m.behaviours[c.id]? = some none) (hb : a.budget ≤ b + p.stride) :
    (m.withBehaviours c []).Sound p { a with classes := c.id :: a.classes, budget := b } where
  types_size := h.types_size
  behaviours_size := (Array.size_setIfInBounds ..).trans h.behaviours_size
  extends_ :=
    { types := h.extends_.types
      behaviours := fun i bs hi => by
        have hmi := h.extends_.behaviours i bs hi
        grind [withBehaviours] }
  budget := by
    have hspend := h.spend (unasked_withBehaviours hm [])
    grind
  over_ := h.over_
  written := h.written
  found := fun i bs hi => by
    rcases getElem?_set_some hi with ⟨-, rfl⟩ | ⟨-, hi⟩
    · exact ⟨nofun, nofun, .nil⟩
    · exact h.found i bs hi
  within := fun k bs hk hnames hi => by
    rcases getElem?_set_some hi with ⟨-, rfl⟩ | ⟨-, hi⟩
    · exact nofun
    · exact h.within k bs hk hnames hi
  own := fun k bs hk hnot hi => by
    rw [mem_cons, not_or] at hnot
    rcases getElem?_set_some hi with ⟨heq, -⟩ | ⟨-, hi⟩
    · exact absurd heq.symm hnot.1
    · exact h.own k bs hk hnot.2 hi
  full := fun k bs hk hd hnot hi => by
    rw [mem_cons, not_or] at hnot
    rcases getElem?_set_some hi with ⟨heq, -⟩ | ⟨-, hi⟩
    · exact absurd heq.symm hnot.1
    · exact h.full k bs hk hd hnot.2 hi

theorem Sound.closeClass {bs : List Behaviour}
    (h : m.Sound p { a with classes := c.id :: a.classes, budget := b }) (hc : p.Has c) (hb : b ≤ a.budget)
    (hbase : ∀ cs, a.base.behaviours[c.id]? ≠ some (some cs)) (hf : p.Found bs)
    (hw : p.NamesClasses c → p.Within c bs) (ho : p.OwnFirst c bs)
    (hfull : p.IsDeclared c → p.Full c bs ∧ p.IsRepertoire c bs) : (m.withBehaviours c bs).Sound p a where
  types_size := h.types_size
  behaviours_size := (Array.size_setIfInBounds ..).trans h.behaviours_size
  extends_ :=
    { types := h.extends_.types
      behaviours := fun i cs hi => by
        rw [withBehaviours, Array.getElem?_setIfInBounds, if_neg]
        · exact h.extends_.behaviours i cs hi
        · rintro rfl
          exact hbase cs hi }
  budget :=
    Nat.le_trans (Nat.mul_le_mul_right _ (unasked_withBehaviours_le m c bs)) (Nat.le_trans h.budget hb)
  over_ := h.over_
  written := h.written
  found := fun i cs hi => by
    rcases getElem?_set_some hi with ⟨-, rfl⟩ | ⟨-, hi⟩
    · exact hf
    · exact h.found i cs hi
  within := fun k cs hk hnames hi => by
    rcases getElem?_set_some hi with ⟨heq, rfl⟩ | ⟨-, hi⟩
    · obtain rfl := hc.eq_of_id hk heq
      exact hw hnames
    · exact h.within k cs hk hnames hi
  own := fun k cs hk hnot hi => by
    rcases getElem?_set_some hi with ⟨heq, rfl⟩ | ⟨hne, hi⟩
    · obtain rfl := hc.eq_of_id hk heq
      exact ho
    · refine h.own k cs hk ?_ hi
      rw [mem_cons, not_or]
      exact ⟨Ne.symm hne, hnot⟩
  full := fun k cs hk hd hnot hi => by
    rcases getElem?_set_some hi with ⟨heq, rfl⟩ | ⟨hne, hi⟩
    · obtain rfl := hc.eq_of_id hk heq
      exact hfull hd
    · refine h.full k cs hk hd ?_ hi
      rw [mem_cons, not_or]
      exact ⟨Ne.symm hne, hnot⟩

theorem run_type (n : Node) (work : Typing Ty) (m : Memo) : (Memo.type n work).run m =
      match m.types[n.id]?.join with
      | some t => (t, m)
      | none => ((work.run (m.withType n .unknown)).1,
          (work.run (m.withType n .unknown)).2.withType n (work.run (m.withType n .unknown)).1) := by
  unfold Memo.type
  simp only [StateT.run_bind, StateT.run_get, pure_bind]
  cases m.types[n.id]?.join <;> rfl

theorem run_classBehaviours (n : Node) (work : Typing (List Behaviour)) (m : Memo) :
    (Memo.classBehaviours n work).run m =
      match m.behaviours[n.id]?.join with
      | some bs => (bs, m)
      | none => ((work.run (m.withBehaviours n [])).1,
          (work.run (m.withBehaviours n [])).2.withBehaviours n (work.run (m.withBehaviours n [])).1) := by
  unfold Memo.classBehaviours
  simp only [StateT.run_bind, StateT.run_get, pure_bind]
  cases m.behaviours[n.id]?.join <;> rfl

theorem remembers_classBehaviours (n : Node) (work : Typing (List Behaviour)) (m : Memo)
    (h : n.id < ((Memo.classBehaviours n work).run m).2.behaviours.size) :
    ((Memo.classBehaviours n work).run m).2.behaviours[n.id]? =
      some (some ((Memo.classBehaviours n work).run m).1) := by
  grind [run_classBehaviours, withBehaviours]

theorem join_eq_none (hi : i < xs.size) (h : xs[i]?.join = none) : xs[i]? = some none := by grind

theorem keeps_type {work : Typing Ty} (hn : p.Has n) (hfree : p.IsLight n → n.id ∉ a.nodes)
    (hw : ∀ b, b + p.stride = a.budget →
      Keeps (Memo.Sound p { a with nodes := n.id :: a.nodes, budget := b }) work
        fun t => t.Over p ∧ (p.IsLight n → t = p.written n)) :
    Keeps (Memo.Sound p a) (Memo.type n work) fun t => t.Over p ∧ (p.IsLight n → t = p.written n) := by
  intro m hm
  rw [run_type]
  cases hj : m.types[n.id]?.join with
  | some t =>
    have ht : m.types[n.id]? = some (some t) := Option.join_eq_some_iff.mp hj
    exact ⟨⟨hm.over_ _ t ht, fun hl => hm.written n t hn hl (hfree hl) ht⟩, hm⟩
  | none =>
    have hnone : m.types[n.id]? = some none := join_eq_none (hm.types_size ▸ hn.lt_size) hj
    have hspend := hm.spend (unasked_withType hnone .unknown)
    obtain ⟨b, hb⟩ : ∃ b, b + p.stride = a.budget := ⟨a.budget - p.stride, by omega⟩
    obtain ⟨⟨hover, hwritten⟩, hwork⟩ := hw b hb _ (hm.openType hnone (by omega))
    refine ⟨⟨hover, hwritten⟩, hwork.closeType hn (by omega) (fun u hu => ?_) hover hwritten⟩
    rw [hm.extends_.types _ u hu] at hnone
    cases hnone

structure Flattens (p : Program) (a : Pending) (c : Node) (bs : List Behaviour) : Prop where
  found : p.Found bs
  within : p.NamesClasses c → p.Within c bs
  own : c.id ∉ a.classes → p.OwnFirst c bs
  full : c.id ∉ a.classes → p.IsDeclared c → p.Full c bs ∧ p.IsRepertoire c bs

theorem keeps_classBehaviours {work : Typing (List Behaviour)} (hc : p.Has c) (hw : ∀ b, b + p.stride = a.budget →
      Keeps (Memo.Sound p { a with classes := c.id :: a.classes, budget := b }) work
        fun bs => p.Found bs ∧ (p.NamesClasses c → p.Within c bs) ∧ p.OwnFirst c bs ∧
          (p.IsDeclared c → p.Full c bs ∧ p.IsRepertoire c bs)) :
    Keeps (Memo.Sound p a) (Memo.classBehaviours c work) (Flattens p a c) := by
  intro m hm
  rw [run_classBehaviours]
  cases hj : m.behaviours[c.id]?.join with
  | some bs =>
    have hbs : m.behaviours[c.id]? = some (some bs) := Option.join_eq_some_iff.mp hj
    exact ⟨⟨hm.found _ bs hbs, fun hnames => hm.within c bs hc hnames hbs, fun hnot => hm.own c bs hc hnot hbs,
      fun hnot hd => hm.full c bs hc hd hnot hbs⟩, hm⟩
  | none =>
    have hnone : m.behaviours[c.id]? = some none := join_eq_none (hm.behaviours_size ▸ hc.lt_size) hj
    have hspend := hm.spend (unasked_withBehaviours hnone [])
    obtain ⟨b, hb⟩ : ∃ b, b + p.stride = a.budget := ⟨a.budget - p.stride, by omega⟩
    obtain ⟨⟨hfound, hwithin, hown, hfull⟩, hwork⟩ := hw b hb _ (hm.openClass hnone (by omega))
    refine ⟨⟨hfound, hwithin, fun _ => hown, fun _ => hfull⟩,
      hwork.closeClass hc (by omega) (fun cs hcs => ?_) hfound hwithin hown hfull⟩
    rw [hm.extends_.behaviours _ cs hcs] at hnone
    cases hnone

end Memo

end Parlance
