import Mathlib.Data.List.Perm.Subperm
import Parlance.Grammar.Arena
/-!
Arenas that grow: the nodes that come to stand in an arena are those of the twigs that were read.
-/
namespace Parlance

open List

namespace Twig

theorem induct {P : Twig → Prop} (h : ∀ i shape span ts, (∀ t ∈ ts, P t) → P (node i shape span ts)) (t : Twig) : P t :=
  @Twig.rec P (∀ t ∈ ·, P t) h (forall_mem_nil P) (fun _ _ ht hts => forall_mem_cons.mpr ⟨ht, hts⟩) t

mutual

def tree : Twig → Tree
  | node _ shape span children => .node shape span (trees children)

def trees : List Twig → List Tree
  | [] => []
  | t :: ts => tree t :: trees ts

end

@[simp, grind =]
theorem shape_tree (t : Twig) : t.tree.shape = t.shape := by
  cases t
  rfl

@[simp, grind =]
theorem span_tree (t : Twig) : t.tree.span = t.span := by
  cases t
  rfl

theorem trees_eq (ts : List Twig) : trees ts = ts.map tree := by
  induction ts with
  | nil => rfl
  | cons t ts ih => rw [trees, ih, map_cons]

mutual

/-- The nodes of a twig below `up`, each with its number. -/
def layout (up : Option Nat) : Twig → List (Nat × Arena.Node)
  | node i shape span children => (i, ⟨up, shape, span, children.map id⟩) :: layoutAll (some i) children

def layoutAll (up : Option Nat) : List Twig → List (Nat × Arena.Node)
  | [] => []
  | t :: ts => layout up t ++ layoutAll up ts

end

theorem layoutAll_eq (up : Option Nat) (ts : List Twig) : layoutAll up ts = ts.flatMap (layout up) := by
  induction ts with
  | nil => rfl
  | cons t ts ih => rw [layoutAll, ih, flatMap_cons]

theorem children_tree (t : Twig) : t.tree.children = t.children.map tree := by
  cases t
  exact trees_eq _

theorem layoutAll_append (up : Option Nat) (ts us : List Twig) :
    layoutAll up (ts ++ us) = layoutAll up ts ++ layoutAll up us := by
  simp only [layoutAll_eq, flatMap_append]

/-- The node of a twig below `up`. -/
def entry (up : Option Nat) (t : Twig) : Nat × Arena.Node := (t.id, ⟨up, t.shape, t.span, t.children.map id⟩)

variable {t : Twig} {up : Option Nat} {x : Nat × Arena.Node}

theorem layout_eq (up : Option Nat) (t : Twig) : t.layout up = t.entry up :: layoutAll (some t.id) t.children := by
  cases t
  rfl

theorem mem_layout : x ∈ t.layout up ↔ x = t.entry up ∨ ∃ c ∈ t.children, x ∈ c.layout (some t.id) := by
  rw [layout_eq, layoutAll_eq, mem_cons, mem_flatMap]

theorem entry_mem (up : Option Nat) (t : Twig) : t.entry up ∈ t.layout up := mem_layout.mpr (.inl rfl)

theorem layout_child (h : x ∈ t.layout up) : ∀ c ∈ x.2.children, ∃ m, (c, m) ∈ t.layout up ∧ m.parent = some x.1 := by
  induction t using induct generalizing up with
  | h i shape span ts ih =>
    intro c hc
    obtain rfl | ⟨u, hu, hx⟩ := mem_layout.mp h
    · obtain ⟨u, hu, rfl⟩ := mem_map.mp hc
      exact ⟨_, mem_layout.mpr (.inr ⟨u, hu, u.entry_mem (some i)⟩), rfl⟩
    · obtain ⟨m, hm, hparent⟩ := ih u hu hx c hc
      exact ⟨m, mem_layout.mpr (.inr ⟨u, hu, hm⟩), hparent⟩

theorem layout_above (h : x ∈ t.layout up) : x = t.entry up ∨ ∃ y ∈ t.layout up, x.1 ∈ y.2.children := by
  induction t using induct generalizing up with
  | h i shape span ts ih =>
    refine (mem_layout.mp h).imp_right ?_
    rintro ⟨u, hu, hx⟩
    obtain rfl | ⟨y, hy, hmem⟩ := ih u hu hx
    · exact ⟨_, entry_mem up _, mem_map_of_mem hu⟩
    · exact ⟨y, mem_layout.mpr (.inr ⟨u, hu, hy⟩), hmem⟩

theorem ids_sublist (up : Option Nat) (ts : List Twig) : ts.map id <+ (layoutAll up ts).map Prod.fst := by
  induction ts with
  | nil => exact .slnil
  | cons t ts ih =>
    rw [layoutAll, layout_eq, map_append]
    exact .cons_cons _ (ih.trans (sublist_append_right _ _))

theorem layout_sublist {ts : List Twig} (ht : t ∈ ts) : t.layout up <+ layoutAll up ts := by
  rw [layoutAll_eq, flatMap_def]
  exact sublist_flatten_of_mem (mem_map_of_mem ht)

theorem layout_once (hx : x ∈ t.layout up) (h : ((t.layout up).map Prod.fst).Nodup) : x.2.children.Nodup := by
  induction t using induct generalizing up with
  | h i shape span ts ih =>
    rw [layout_eq, map_cons, nodup_cons] at h
    obtain rfl | ⟨u, hu, hx⟩ := mem_layout.mp hx
    · exact h.2.sublist (ids_sublist _ _)
    · exact ih u hu hx (h.2.sublist ((layout_sublist hu).map _))

end Twig

namespace Arena

variable {a b c : Arena} {i j up : Nat} {n : Node} {L M : List (Nat × Node)} {ts : List Twig}

theorem node?_push (a : Arena) (i : Nat) : node? (a.push none) i = a.node? i := by
  grind [node?]

theorem lt_size_of_node? (h : a.node? i = some n) : i < a.size := by
  grind [node?]

theorem node?_add (h : i < a.size) : (a.add i n).node? j = if j = i then some n else a.node? j := by
  grind [node?, add]

theorem node?_remove : (a.remove i).node? j = if j = i then none else a.node? j := by
  grind [node?, remove]

/-- The number was handed out and stands for no node. -/
def IsOpen (a : Arena) (i : Nat) : Prop := i < a.size ∧ a.node? i = none

theorem isOpen_push (a : Arena) : IsOpen (a.push none) a.size := by
  grind [IsOpen, node?]

theorem IsOpen.remove (h : a.IsOpen i) (j : Nat) : (a.remove j).IsOpen i := by
  grind [IsOpen, node?_remove, Arena.remove]

theorem IsOpen.reparentAll (h : a.IsOpen i) (up : Nat) (ts : List Twig) : (a.reparentAll up ts).IsOpen i := by
  induction ts generalizing a with
  | nil => exact h
  | cons t ts ih =>
    refine ih (a := a.reparent up t.id) ?_
    unfold reparent
    split
    · grind [IsOpen, add, node?_add, lt_size_of_node?]
    · exact h

/-- An arena that grew by certain nodes, whose numbers were handed out meanwhile. -/
structure Grows (a : Arena) (L : List (Nat × Node)) (b : Arena) : Prop where
  size : a.size ≤ b.size
  kept : ∀ i < a.size, b.node? i = a.node? i
  once : (L.map Prod.fst).Nodup
  held : ∀ i n, (i, n) ∈ L ↔ a.size ≤ i ∧ b.node? i = some n

theorem Grows.refl (a : Arena) : Grows a [] a := by
  refine ⟨Nat.le_refl _, fun _ _ => rfl, nodup_nil, fun i n => ⟨(absurd · not_mem_nil), fun h => ?_⟩⟩
  exact absurd h.1 (Nat.not_le.mpr (lt_size_of_node? h.2))

theorem Grows.push (h : Grows a L b) : Grows a L (b.push none) := by
  refine ⟨?_, fun i hi => (node?_push b i).trans (h.kept i hi), h.once, fun i n => ?_⟩
  · rw [Array.size_push]
    exact Nat.le_succ_of_le h.size
  · rw [node?_push]
    exact h.held i n

theorem Grows.trans (h : Grows a L b) (h' : Grows b M c) : Grows a (L ++ M) c := by
  have hsize := h.size
  have hL (x) (hx : x ∈ L) : x.1 < b.size := lt_size_of_node? ((h.held x.1 x.2).mp hx).2
  have hM (x) (hx : x ∈ M) : b.size ≤ x.1 := ((h'.held x.1 x.2).mp hx).1
  refine ⟨Nat.le_trans hsize h'.size, fun i hi => ?_, ?_, fun i n => ?_⟩
  · rw [h'.kept i (by omega), h.kept i hi]
  · rw [map_append, nodup_append]
    grind [h.once, h'.once]
  · grind [h.held i n, h'.held i n, h'.kept i]

theorem Grows.perm (h : Grows a L b) (hp : L ~ M) : Grows a M b :=
  ⟨h.size, h.kept, (hp.map _).nodup_iff.mp h.once, fun i n => hp.mem_iff.symm.trans (h.held i n)⟩

theorem Grows.add (h : Grows a L b) (hi : a.size ≤ i) (hopen : b.IsOpen i) : Grows a ((i, n) :: L) (b.add i n) := by
  obtain ⟨hlt, hopen⟩ := hopen
  refine ⟨?_, fun j hj => ?_, ?_, fun j m => ?_⟩
  · simpa [Arena.add] using h.size
  · rw [node?_add hlt, if_neg (by omega), h.kept j hj]
  · grind [h.once, h.held i]
  · grind [h.held, node?_add hlt]

theorem Grows.remove (h : Grows a ((i, n) :: L) b) : Grows a L (b.remove i) := by
  have hi := ((h.held i n).mp mem_cons_self).1
  obtain ⟨hnot, honce⟩ := nodup_cons.mp h.once
  refine ⟨?_, fun j hj => ?_, honce, fun j m => ?_⟩
  · simpa [Arena.remove] using h.size
  · rw [node?_remove, if_neg (by omega), h.kept j hj]
  · grind [h.held j m, node?_remove]

theorem Grows.reparent (h : Grows a ((i, n) :: L) b) (up : Nat) :
    Grows a ((i, { n with parent := some up }) :: L) (b.reparent up i) := by
  have hn := (h.held i n).mp mem_cons_self
  obtain ⟨hnot, honce⟩ := nodup_cons.mp h.once
  have hlt := lt_size_of_node? hn.2
  rw [Arena.reparent, hn.2]
  refine ⟨?_, fun j hj => ?_, h.once, fun j m => ?_⟩
  · simpa [Arena.add] using h.size
  · rw [node?_add hlt, if_neg (by omega), h.kept j hj]
  · grind [h.held j m, node?_add hlt]

theorem Grows.reparentAll {p : Option Nat} (h : Grows a (Twig.layoutAll p ts ++ L) b) (up : Nat) :
    Grows a (Twig.layoutAll (some up) ts ++ L) (b.reparentAll up ts) := by
  induction ts generalizing b L with
  | nil => exact h
  | cons t ts ih =>
    rw [Twig.layoutAll, append_assoc, Twig.layout_eq] at h
    rw [Twig.layoutAll, append_assoc]
    have hmoved : Grows a (t.layout (some up) ++ (Twig.layoutAll p ts ++ L)) (b.reparent up t.id) := by
      rw [Twig.layout_eq]
      exact h.reparent up
    exact (ih (hmoved.perm (perm_append_comm_assoc _ _ _))).perm (perm_append_comm_assoc _ _ _)

mutual

theorem Grows.discard {p : Option Nat} {L : List (Nat × Node)} {b : Arena} :
    (t : Twig) → Grows a (t.layout p ++ L) b → Grows a L (b.discard t)
  | .node _ _ _ ts, h => (Grows.discardAll ts (h.perm perm_middle.symm)).remove

theorem Grows.discardAll {p : Option Nat} {L : List (Nat × Node)} {b : Arena} :
    (ts : List Twig) → Grows a (Twig.layoutAll p ts ++ L) b → Grows a L (b.discardAll ts)
  | [], h => h
  | t :: ts, h => Grows.discardAll ts (Grows.discard t (by simpa only [Twig.layoutAll, append_assoc] using h))

end

/-- What is found from a twig's node on is its tree. -/
theorem tree_eq {t : Twig} {p : Option Nat} {depth : Nat} (h : ∀ x ∈ t.layout p, a.node? x.1 = some x.2)
    (hd : (t.layout p).length ≤ depth) : a.tree depth t.id = t.tree := by
  induction t using Twig.induct generalizing p depth with
  | h i shape span ts ih =>
    rw [Twig.layout_eq, length_cons] at hd
    cases depth with
    | zero => cases hd
    | succ depth =>
      have hnode : a.node? i = some ⟨p, shape, span, ts.map Twig.id⟩ := h _ (Twig.entry_mem p _)
      simp only [tree, Twig.id, hnode, Twig.tree, Twig.trees_eq, map_map, Tree.node.injEq, true_and]
      refine map_congr_left fun t ht => ih t ht (fun x hx => h x (Twig.mem_layout.mpr (.inr ⟨t, ht, hx⟩))) ?_
      exact Nat.le_trans (Twig.layout_sublist ht).length_le (Nat.le_of_succ_le_succ hd)

theorem Grows.length_le (h : Grows a L b) : L.length ≤ b.size := by
  rw [← length_map Prod.fst, ← length_range (n := b.size)]
  refine (h.once.subperm fun i hi => ?_).length_le
  obtain ⟨x, hx, rfl⟩ := mem_map.mp hi
  exact mem_range.mpr (lt_size_of_node? ((h.held x.1 x.2).mp hx).2)

/-- The nodes of an arena form one tree. -/
structure IsTree (a : Arena) (r : Nat) : Prop where
  root : ∃ n, a.node? r = some n ∧ n.parent = none
  child : ∀ i n, a.node? i = some n → ∀ c ∈ n.children, ∃ m, a.node? c = some m ∧ m.parent = some i
  once : ∀ i n, a.node? i = some n → n.children.Nodup
  apart : ∀ i j n m, a.node? i = some n → a.node? j = some m → ∀ c ∈ n.children, c ∈ m.children → i = j
  above : ∀ i n, a.node? i = some n → i ≠ r → ∃ q m, a.node? q = some m ∧ i ∈ m.children

theorem Grows.isTree {t : Twig} (h : Grows #[] (t.layout none) a) : IsTree a t.id := by
  have hheld (i : Nat) (n : Node) : a.node? i = some n ↔ (i, n) ∈ t.layout none :=
    ⟨fun hn => (h.held i n).mpr ⟨Nat.zero_le _, hn⟩, fun hn => ((h.held i n).mp hn).2⟩
  have hchild (i n) (hn : a.node? i = some n) (c) (hc : c ∈ n.children) :
      ∃ m, a.node? c = some m ∧ m.parent = some i := by
    obtain ⟨m, hm, hparent⟩ := Twig.layout_child ((hheld i n).mp hn) c hc
    exact ⟨m, (hheld c m).mpr hm, hparent⟩
  refine ⟨⟨_, (hheld _ _).mpr (t.entry_mem none), rfl⟩, hchild, fun i n hn => ?_, fun i j n m hn hm c hc hc' => ?_,
    fun i n hn hne => ?_⟩
  · exact Twig.layout_once ((hheld i n).mp hn) h.once
  · obtain ⟨l, hl, hi⟩ := hchild i n hn c hc
    obtain ⟨l', hl', hj⟩ := hchild j m hm c hc'
    obtain rfl := Option.some.inj (hl.symm.trans hl')
    exact Option.some.inj (hi.symm.trans hj)
  · obtain hx | ⟨y, hy, hmem⟩ := Twig.layout_above ((hheld i n).mp hn)
    · exact absurd (congrArg Prod.fst hx) hne
    · exact ⟨y.1, y.2, (hheld _ _).mpr hy, hmem⟩

end Arena

end Parlance
