import Parlance.Proofs.WholeTexts
/-!
The nodes a text leaves in a forest form one tree: parents and children know each other.
-/
namespace Parlance

open List

/-! ### The end of a text -/

namespace Grammar

theorem steady_start (src : Source) (room : Option Nat) : (State.start src room).Steady src := by
  have hwords : ∀ t ∈ src.words, t.kind ≠ .eof ∧ t.span.Lies src ∧ t.IsSpelled ∧
      t.span.start.offset < t.span.stop.offset := by
    intro t ht
    obtain ⟨hmem, hkind⟩ := mem_filter.mp ht
    rw [Bool.and_eq_true, bne_iff_ne] at hkind
    have hspelled := isSpelled_of_mem_tokens hmem
    have hlength := length_pos_iff.mpr (hspelled.text hkind.2)
    have hstop := (Token.mem_place hmem).2.2.1
    exact ⟨hkind.2, Source.lies_of_mem_tokens hmem, hspelled, by omega⟩
  have hsize := src.offset_endLocation
  have hmark : Span.Lies src ⟨src.uri, src.endLocation, src.endLocation⟩ := by
    refine ⟨rfl, ?_, Int.le_refl _, Int.le_of_eq hsize⟩
    rw [hsize]
    exact Int.natCast_nonneg _
  have hword := fun t ht => (hwords t ht).2.1
  refine ⟨hwords, ⟨rfl, hmark⟩, pairwise_append.mpr ⟨(Token.pairwise_place _ _ _).sublist filter_sublist,
    pairwise_singleton _ _, fun t ht u hu => ?_⟩, ⟨Int.le_refl _, Int.natCast_nonneg _⟩, ?_, nofun, rfl, nofun⟩
  · rw [mem_singleton.mp hu, State.start, hsize]
    exact (hword t ht).last
  · show 0 ≤ ((src.words[0]?).getD _).span.start.offset
    cases hw : src.words[0]? with
    | none => exact hmark.first
    | some w => exact (hword w (mem_of_getElem? hw)).first

end Grammar

namespace Source

def remains (s : Source) (room : Option Nat) : Grammar.State := ((Grammar.text s).run (.start s room)).2

theorem remarks_parse (s : Source) (room : Option Nat) :
    (s.parse room).remarks = (s.remains room).remarks.reverse := rfl

/-- The parts of a text are read to its end. The arena holds their nodes and that of the root, and nothing else. -/
theorem text_reads (s : Source) (room : Option Nat) : ∃ r t a, r.id = 0 ∧ r.shape = Grammar.rootShape s ∧
    r.span = ⟨s.uri, .origin, s.endLocation⟩ ∧ Grammar.Reads s 0 (.start s room) r.children t ∧ t.kindAt 0 = .eof ∧
    (t.Clean → r.tree.Proper) ∧ (Grammar.text s).run (.start s room) = (r, t.keep a) ∧
    Arena.Grows #[] (r.layout none) a := by
  have hstart : Grammar.Reads s 0 (.start s room) [] _ := .refl (Grammar.steady_start s room)
  have hroot {ts : List Twig} {t : Grammar.State} (n : Arena.Node) (h : Grammar.Reads s 0 (.start s room) ts t) :
      Arena.Grows #[] ((0, n) :: Twig.layoutAll (some 0) ts) (t.arena.add 0 n) := by
    refine ((Arena.Grows.refl #[]).push.trans h.grown).add (Nat.zero_le _) ⟨?_, ?_⟩
    · exact Nat.lt_of_lt_of_le Nat.zero_lt_one h.grown.size
    · exact (h.grown.kept 0 Nat.zero_lt_one).trans rfl
  unfold Grammar.text
  by_cases hline : s.kind.isLine
  · obtain ⟨⟨hreads, hparts⟩, hend⟩ := Grammar.lists_lineParts hstart
    simp only [if_pos hline]
    refine ⟨.node 0 (Grammar.rootShape s) _ _, _, _, rfl, rfl, rfl, hreads, hend, fun hc => ?_, rfl, hroot _ hreads⟩
    rw [Twig.tree, Twig.trees_eq, Grammar.rootShape, if_pos hline]
    exact .node (.lineRoot (forall_mem_map.mpr fun c hm => (hparts hc c hm).2))
      (forall_mem_map.mpr fun c hm => (hparts hc c hm).1)
  · obtain ⟨⟨hreads, hparts⟩, hend⟩ := Grammar.lists_moduleParts hstart
    simp only [if_neg hline]
    refine ⟨.node 0 (Grammar.rootShape s) _ _, _, _, rfl, rfl, rfl, hreads, hend, fun hc => ?_, rfl, hroot _ hreads⟩
    rw [Twig.tree, Twig.trees_eq, Grammar.rootShape, if_neg hline]
    exact .node (.moduleRoot (forall_mem_map.mpr fun c hm => (hparts hc c hm).2))
      (forall_mem_map.mpr fun c hm => (hparts hc c hm).1)

theorem tree_parse {s : Source} {room : Option Nat} {r : Twig} {t : Grammar.State}
    (h : (Grammar.text s).run (.start s room) = (r, t)) (hg : Arena.Grows #[] (r.layout none) t.arena) :
    (s.parse room).tree = r.tree := by
  unfold parse
  rw [h]
  exact Arena.tree_eq (fun x hx => ((hg.held x.1 x.2).mp hx).2) hg.length_le

theorem root_parse (s : Source) (room : Option Nat) : (s.parse room).tree.shape = Grammar.rootShape s ∧
    (s.parse room).tree.span = ⟨s.uri, .origin, s.endLocation⟩ := by
  obtain ⟨r, t, a, -, hshape, hspan, -, -, -, hrun, hgrown⟩ := s.text_reads room
  rw [tree_parse hrun hgrown, Twig.shape_tree, Twig.span_tree]
  exact ⟨hshape, hspan⟩

/-- A text is read to its end; without remarks its parts are what they should be and where they should be. -/
theorem parse_steady (s : Source) (room : Option Nat) :
    (s.remains room).Steady s ∧ (s.remains room).rest = [] ∧ (s.parse room).tree.isSound s ∧
      (room ≠ some 0 → (s.remains room).remarks = [] →
        (s.parse room).tree.Proper ∧ (s.parse room).tree.Nests) := by
  have hroot : Span.Lies s ⟨s.uri, .origin, s.endLocation⟩ := by
    refine ⟨rfl, Int.le_refl _, ?_, Int.le_of_eq s.offset_endLocation⟩
    rw [offset_endLocation]
    exact Int.natCast_nonneg _
  obtain ⟨⟨_, _, _, ts⟩, t, a, rfl, rfl, rfl, h, hend, hproper, hrun, hgrown⟩ := s.text_reads room
  rw [tree_parse hrun hgrown, Twig.tree, Twig.trees_eq, remains, hrun]
  change Grammar.Reads s 0 _ ts t at h
  refine ⟨h.steady.keep _, ?_, Tree.isSound_node hroot (forall_mem_map.mpr h.sound), fun hroom hq => ?_⟩
  · exact not_not.mp fun hne => h.steady.ne_nil.mpr hne hend
  · have hc : t.Clean := ⟨(h.quiet hq).2 ▸ hroom, hq⟩
    obtain ⟨hapart, hts⟩ := h.stand hc
    have hlast := h.steady.last.2
    have hfirst := (Grammar.steady_start s room).behind
    have horigin : 0 ≤ (Grammar.State.start s room).back := Int.le_refl _
    refine ⟨Twig.trees_eq ts ▸ hproper hc, .node (forall_mem_map.mpr fun c hc => (hts c hc).1)
      (forall_mem_map.mpr fun c hc => ?_) (pairwise_map.mpr hapart)⟩
    grind [Location.origin, offset_endLocation, Grammar.State.back]

theorem proper_of_no_errors {s : Source} (h : Diagnostic.hasErrors (s.parse none).remarks = false) :
    (s.parse none).tree.Proper := by
  obtain ⟨hsteady, -, -, hquiet⟩ := s.parse_steady none
  refine (hquiet nofun (eq_nil_iff_forall_not_mem.mpr fun d hd => ?_)).1
  rw [remarks_parse] at h
  exact any_eq_false.mp h d (mem_reverse.mpr hd) (hsteady.grave d hd)

end Source

theorem Twig.lies_of_mem_layout {src : Source} {t : Twig} {up : Option Nat} {x : Nat × Arena.Node}
    (h : t.tree.isSound src) (hx : x ∈ t.layout up) : x.2.span.Lies src := by
  induction t using induct generalizing up with
  | h i shape span ts ih =>
    rw [tree, trees_eq] at h
    obtain ⟨hspan, hsound⟩ := Tree.lies_of_isSound h
    obtain rfl | ⟨c, hc, hx⟩ := mem_layout.mp hx
    · exact hspan
    · exact ih c hc (hsound _ (mem_map_of_mem hc)) hx

/-! ### Nodes in their places -/

namespace Tree

theorem size_pos (t : Tree) : 0 < t.size := by
  obtain ⟨shape, span, children⟩ := t
  exact Nat.succ_pos _

theorem Lies.head {nodes : Array Node} {parent : Option Nat} {i : Nat} {t : Tree} (h : Lies nodes parent i t) :
    ∃ n, nodes[i]? = some n ∧ n.id = i ∧ n.stop = i + t.size ∧ n.parent = parent := by
  obtain ⟨shape, span, children⟩ := t
  refine ⟨_, h.1, rfl, ?_, rfl⟩
  simp only [size]
  omega

theorem mem_starts {nodes : Array Node} {parent : Option Nat} {i c : Nat} {ts : List Tree}
    (h : LieAll nodes parent i ts) (hc : c ∈ starts i ts) :
    i ≤ c ∧ c < i + sizeOf ts ∧ ∃ n, nodes[c]? = some n ∧ n.parent = parent := by
  induction ts generalizing i with
  | nil => cases hc
  | cons t ts ih =>
    have hpos := t.size_pos
    simp only [sizeOf]
    obtain rfl | hc := mem_cons.mp hc
    · obtain ⟨n, hn, -, -, hparent⟩ := h.1.head
      exact ⟨Nat.le_refl _, by omega, n, hn, hparent⟩
    · obtain ⟨hfirst, hlast, hn⟩ := ih h.2 hc
      exact ⟨by omega, by omega, hn⟩

theorem le_of_mem_starts {i c : Nat} {ts : List Tree} (hc : c ∈ starts i ts) : i ≤ c := by
  induction ts generalizing i with
  | nil => cases hc
  | cons t ts ih =>
    obtain rfl | hc := mem_cons.mp hc
    · exact Nat.le_refl _
    · exact Nat.le_trans (Nat.le_add_right _ _) (ih hc)

theorem nodup_starts (i : Nat) (ts : List Tree) : (starts i ts).Nodup := by
  induction ts generalizing i with
  | nil => exact nodup_nil
  | cons t ts ih =>
    refine nodup_cons.mpr ⟨fun hmem => ?_, ih _⟩
    have hle := le_of_mem_starts hmem
    have hpos := t.size_pos
    omega

/-- A node in its place: its children stand below it, and it stands below a node unless it is one of
the first. -/
structure InPlace (nodes : Array Node) (lo hi : Nat) (heads : List Nat) (i : Nat) (n : Node) : Prop where
  at_ : nodes[i]? = some n
  id : n.id = i
  once : n.children.Nodup
  child : ∀ c ∈ n.children, lo ≤ c ∧ c < hi ∧ ∃ m, nodes[c]? = some m ∧ m.parent = some i
  above : i ∈ heads ∨ ∃ q m, lo ≤ q ∧ q < hi ∧ nodes[q]? = some m ∧ i ∈ m.children

variable {nodes : Array Node}

theorem InPlace.mono {lo hi lo' hi' i : Nat} {heads heads' : List Nat} {n : Node}
    (h : InPlace nodes lo hi heads i n) (hlo : lo' ≤ lo) (hhi : hi ≤ hi')
    (hheads : i ∈ heads → i ∈ heads' ∨ ∃ q m, lo' ≤ q ∧ q < hi' ∧ nodes[q]? = some m ∧ i ∈ m.children) :
    InPlace nodes lo' hi' heads' i n := by
  refine ⟨h.at_, h.id, h.once, fun c hc => ?_, ?_⟩
  · obtain ⟨hfirst, hlast, hm⟩ := h.child c hc
    exact ⟨by omega, by omega, hm⟩
  · obtain hhead | ⟨q, m, hfirst, hlast, hm⟩ := h.above
    · exact hheads hhead
    · exact .inr ⟨q, m, by omega, by omega, hm⟩

mutual

theorem inPlace_of_lies {parent : Option Nat} {i : Nat} : {t : Tree} → Lies nodes parent i t →
    ∀ j, i ≤ j → j < i + t.size → ∃ n, InPlace nodes i (i + t.size) [i] j n
  | .node shape span children, h, j, hfirst, hlast => by
    simp only [size] at hlast ⊢
    by_cases hj : j = i
    · subst hj
      refine ⟨_, h.1, rfl, nodup_starts _ _, fun c hc => ?_, .inl mem_cons_self⟩
      obtain ⟨hc, hc', hm⟩ := mem_starts h.2 hc
      exact ⟨by omega, by omega, hm⟩
    · obtain ⟨n, hn⟩ := inPlace_of_lieAll h.2 j (by omega) (by omega)
      refine ⟨n, hn.mono (by omega) (by omega) fun hmem => .inr ⟨i, _, Nat.le_refl _, by omega, h.1, hmem⟩⟩

theorem inPlace_of_lieAll {parent : Option Nat} {i : Nat} : {ts : List Tree} → LieAll nodes parent i ts →
    ∀ j, i ≤ j → j < i + sizeOf ts → ∃ n, InPlace nodes i (i + sizeOf ts) (starts i ts) j n
  | [], _, j, hfirst, hlast => by
    simp only [sizeOf] at hlast
    omega
  | t :: ts, h, j, hfirst, hlast => by
    simp only [sizeOf] at hlast ⊢
    by_cases hj : j < i + t.size
    · obtain ⟨n, hn⟩ := inPlace_of_lies h.1 j hfirst hj
      refine ⟨n, hn.mono (Nat.le_refl _) (by omega) fun hmem => .inl ?_⟩
      rw [mem_singleton.mp hmem]
      exact mem_cons_self
    · obtain ⟨n, hn⟩ := inPlace_of_lieAll h.2 j (by omega) (by omega)
      exact ⟨n, hn.mono (by omega) (by omega) fun hmem => .inl (mem_cons_of_mem _ hmem)⟩

end

end Tree

namespace Forest

/-- The nodes within `r` form one tree with `r` as its root. -/
structure IsTree (f : Forest) (r : Node) : Prop where
  root : r ∈ f.within r ∧ r.parent = none
  /-- A node is found by its position. -/
  found : ∀ n ∈ f.within r, f.node? n.id = some n
  /-- Children are there, and know their parent. -/
  child : ∀ n ∈ f.within r, ∀ c ∈ n.children, ∃ m ∈ f.within r, m.id = c ∧ m.parent = some n.id
  /-- No node is a child twice. -/
  once : ∀ n ∈ f.within r, n.children.Nodup
  alone : ∀ n ∈ f.within r, ∀ m ∈ f.within r, ∀ c ∈ n.children, c ∈ m.children → n = m
  /-- Only the root is nobody's child. -/
  above : ∀ n ∈ f.within r, n ≠ r → ∃ m ∈ f.within r, n.id ∈ m.children

theorem isTree_plant (f : Forest) (d : Document) :
    ∃ r, (f.plant d).node? f.nodes.size = some r ∧ (f.plant d).IsTree r := by
  obtain ⟨-, -, hlies⟩ := Tree.place_spec none f.nodes d.tree
  obtain ⟨r, hr, hid, hstop, hparent⟩ := hlies.head
  have hin (n : Node) : n ∈ (f.plant d).within r ↔ ∃ i, f.nodes.size ≤ i ∧ i < f.nodes.size + d.tree.size ∧
      (f.plant d).nodes[i]? = some n := by
    rw [within, mem_extract, hid, hstop]
  have hplace (n : Node) (hn : n ∈ (f.plant d).within r) : Tree.InPlace (f.plant d).nodes f.nodes.size
      (f.nodes.size + d.tree.size) [f.nodes.size] n.id n := by
    obtain ⟨i, hfirst, hlast, hat⟩ := (hin n).mp hn
    obtain ⟨m, hm⟩ := Tree.inPlace_of_lies hlies i hfirst hlast
    obtain rfl : m = n := Option.some.inj (hm.at_.symm.trans hat)
    rw [hm.id]
    exact hm
  have hchild (n : Node) (hn : n ∈ (f.plant d).within r) (c : Nat) (hc : c ∈ n.children) :
      ∃ m ∈ (f.plant d).within r, m.id = c ∧ m.parent = some n.id := by
    obtain ⟨hfirst, hlast, m, hm, hparent⟩ := (hplace n hn).child c hc
    have hmem := (hin m).mpr ⟨c, hfirst, hlast, hm⟩
    obtain ⟨k, hk⟩ := Tree.inPlace_of_lies hlies c hfirst hlast
    obtain rfl : k = m := Option.some.inj (hk.at_.symm.trans hm)
    exact ⟨k, hmem, hk.id, hparent⟩
  have hfound (n : Node) (hn : n ∈ (f.plant d).within r) : (f.plant d).node? n.id = some n := (hplace n hn).at_
  refine ⟨r, hr, ⟨?_, hparent⟩, hfound, hchild, fun n hn => (hplace n hn).once, ?_, ?_⟩
  · exact (hin r).mpr ⟨f.nodes.size, Nat.le_refl _, Nat.lt_add_of_pos_right d.tree.size_pos, hr⟩
  · grind
  · intro n hn hne
    obtain hhead | ⟨q, m, hfirst, hlast, hm, hmem⟩ := (hplace n hn).above
    · have hnode := hfound n hn
      rw [mem_singleton.mp hhead] at hnode
      exact absurd (Option.some.inj (hnode.symm.trans hr)) hne
    · grind

end Forest

/-- A text of any bytes, a module or a line, is read to its end without reaching a bound. The nodes that were
added and not taken out again form one tree, and they and the remarks lie within the text. -/
theorem Source.parse_whole (s : Source) (room : Option Nat) :
    (s.remains room).rest = [] ∧ (s.remains room).cut = false ∧ (∀ d ∈ (s.parse room).remarks, d.span.Lies s) ∧
    (s.remains room).arena.IsTree 0 ∧ (∀ i n, (s.remains room).arena.node? i = some n → n.span.Lies s) ∧
    (s.parse room).tree = (s.remains room).arena.tree (s.remains room).arena.size 0 ∧
    (s.parse room).tree.isSound s = true := by
  obtain ⟨hsteady, hrest, hsound, -⟩ := s.parse_steady room
  obtain ⟨r, t, a, hroot, -, -, -, -, -, hrun, hgrown⟩ := s.text_reads room
  have htree := tree_parse hrun hgrown
  have harena : (s.remains room).arena = a := by
    rw [remains, hrun]
    rfl
  rw [harena]
  refine ⟨hrest, hsteady.whole, fun d hd => ?_, hroot ▸ hgrown.isTree, fun i n hn => ?_, ?_, hsound⟩
  · rw [remarks_parse, mem_reverse] at hd
    exact hsteady.remarks d hd
  · exact Twig.lies_of_mem_layout (htree ▸ hsound) ((hgrown.held i n).mpr ⟨Nat.zero_le _, hn⟩)
  · rw [parse, hrun, ← hroot]
    rfl

end Parlance
