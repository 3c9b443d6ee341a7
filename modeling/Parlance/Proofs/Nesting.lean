import Mathlib.Data.List.Chain
import Parlance.Proofs.ValidTrees
/-!
The nodes a cursor lies in: every node holds its children, so the way from the root down misses none.
-/
namespace Parlance

open List

namespace Span

def Holds (a b : Span) : Prop := a.start.offset ≤ b.start.offset ∧ b.stop.offset ≤ a.stop.offset

def Covers (s : Span) (l : Location) : Prop := s.start.offset ≤ l.offset ∧ l.offset < s.stop.offset

theorem Lies.contains_iff {src : Source} {span : Span} {l : Location} (h : span.Lies src) :
    span.contains src.uri l ↔ span.start.offset ≤ l.offset ∧ l.offset ≤ span.stop.offset := by
  simp [contains, touches, h.uri]

theorem Covers.mono {a b : Span} {l : Location} (hab : a.Holds b) (h : b.Covers l) : a.Covers l :=
  ⟨Int.le_trans hab.1 h.1, Int.lt_of_lt_of_le h.2 hab.2⟩

end Span

namespace Tree

variable {src : Source} {nodes : Array Node} {l : Location} {lo hi j : Nat} {n : Node} {parent : Option Nat}

theorem Lies.span_eq {t : Tree} (h : Lies nodes parent j t) (hn : nodes[j]? = some n) : n.span = t.span := by
  obtain ⟨shape, span, children⟩ := t
  exact congrArg Node.span (Option.some.inj (hn.symm.trans h.1))

theorem LieAll.spans_eq {i : Nat} {ts : List Tree} (h : LieAll nodes parent i ts) :
    ((starts i ts).filterMap (nodes[·]?)).map (·.span) = ts.map (·.span) := by
  induction ts generalizing i with
  | nil => rfl
  | cons t ts ih =>
    obtain ⟨n, hn, -⟩ := h.1.head
    rw [starts, filterMap_cons_some hn, map_cons, map_cons, ih h.2, h.1.span_eq hn]

mutual

theorem part_of_lies {parent : Option Nat} {i : Nat} : {t : Tree} → Lies nodes parent i t → t.Nests → i ≤ j →
    j < i + t.size → ∃ q u, Lies nodes q j u ∧ u.Nests ∧ t.span.Holds u.span
  | .node shape span children, h, .node hc hin hapart, hfirst, hlast => by
    simp only [size] at hlast
    by_cases hj : j = i
    · exact ⟨parent, _, hj ▸ h, .node hc hin hapart, Int.le_refl _, Int.le_refl _⟩
    · obtain ⟨c, hmem, q, u, hu, hnests, hholds⟩ := part_of_lieAll h.2 hc (by omega) (by omega)
      have hspan := hin c hmem
      exact ⟨q, u, hu, hnests, Int.le_trans hspan.1 hholds.1, Int.le_trans hholds.2 hspan.2.2⟩

theorem part_of_lieAll {parent : Option Nat} {i : Nat} : {ts : List Tree} → LieAll nodes parent i ts →
    (∀ t ∈ ts, t.Nests) → i ≤ j → j < i + sizeOf ts →
      ∃ c ∈ ts, ∃ q u, Lies nodes q j u ∧ u.Nests ∧ c.span.Holds u.span
  | [], _, _, hfirst, hlast => by
    simp only [sizeOf] at hlast
    omega
  | t :: ts, h, hn, hfirst, hlast => by
    simp only [sizeOf] at hlast
    by_cases hj : j < i + t.size
    · exact ⟨t, mem_cons_self, part_of_lies h.1 (hn t mem_cons_self) hfirst hj⟩
    · obtain ⟨c, hmem, hc⟩ := part_of_lieAll h.2 (fun u hu => hn u (mem_cons_of_mem t hu)) (by omega) (by omega)
      exact ⟨c, mem_cons_of_mem t hmem, hc⟩

end

/-- A way down to `l` that misses no node from `lo` up to `hi`. -/
structure Way (nodes : Array Node) (l : Location) (parent : Option Nat) (lo hi : Nat) (ns : List Node) : Prop where
  within : ∀ n ∈ ns, ∃ j, lo ≤ j ∧ j < hi ∧ nodes[j]? = some n
  head : ∀ n ∈ ns.head?, n.parent = parent
  chain : ns.IsChain fun m c => c.parent = some m.id
  holds : ns.Pairwise fun m c => m.span.Holds c.span
  reach : ∀ n ∈ ns, n.span.Covers l ∨ n.span.stop.offset = l.offset
  whole : ∀ j n, lo ≤ j → j < hi → nodes[j]? = some n → n.span.Covers l → n ∈ ns

theorem Way.widen {lo' hi' : Nat} {ns : List Node} (h : Way nodes l parent lo' hi' ns) (hlo : lo ≤ lo') (hhi : hi' ≤ hi)
    (hrest : ∀ j n, lo ≤ j → j < hi → j < lo' ∨ hi' ≤ j → nodes[j]? = some n → ¬ n.span.Covers l) :
    Way nodes l parent lo hi ns := by
  refine ⟨fun n hn => ?_, h.head, h.chain, h.holds, h.reach, fun j n hfirst hlast hn hcovers => ?_⟩
  · obtain ⟨j, hfirst, hlast, hj⟩ := h.within n hn
    exact ⟨j, by omega, by omega, hj⟩
  · by_cases hj : lo' ≤ j ∧ j < hi'
    · exact h.whole j n hj.1 hj.2 hn hcovers
    · grind

theorem holds_of_covers {m : Node} {ns : List Node} (h : ns.Pairwise fun m c => m.span.Holds c.span) (hm : m ∈ ns)
    (hn : n ∈ ns) (hc : m.span.Covers l) (hnot : ¬ n.span.Covers l) : m.span.Holds n.span := by
  induction h with
  | nil => cases hm
  | cons hall _ ih =>
    obtain rfl | hm' := mem_cons.mp hm <;> obtain rfl | hn' := mem_cons.mp hn
    · exact absurd hc hnot
    · exact hall n hn'
    · exact absurd (hc.mono (hall m hm')) hnot
    · exact ih hm' hn'

/-- The nodes at the positions of a path, counted from `p`. -/
def trail (nodes : Array Node) (p : Nat) (path : List Nat) : List Node := path.filterMap fun i => nodes[p + i]?

theorem trail_cons {p k : Nat} (h : nodes[p + k]? = some n) (path : List Nat) :
    trail nodes p (k :: path) = n :: trail nodes p path := by
  simp [trail, h]

mutual

theorem way_pathFrom {parent : Option Nat} (p k : Nat) : {t : Tree} → Lies nodes parent (p + k) t → t.Nests →
    t.isSound src → t.span.contains src.uri l →
      Way nodes l parent (p + k) (p + k + t.size) (trail nodes p (pathFrom src.uri l k t))
  | .node shape span children, h, hnests, hs, hat => by
    obtain ⟨hspan, hsound⟩ := lies_of_isSound hs
    have hat := hspan.contains_iff.mp hat
    have hpart (j : Nat) (m : Node) (hfirst : p + k ≤ j) (hlast : j < p + k + (node shape span children).size)
        (hm : nodes[j]? = some m) : span.Holds m.span := by
      obtain ⟨q, u, hu, -, hholds⟩ := part_of_lies h hnests hfirst hlast
      exact hu.span_eq hm ▸ hholds
    obtain ⟨hc, hin, hapart⟩ := hnests
    have hway : Way nodes l (some (p + k)) (p + k + 1) (p + k + 1 + sizeOf children)
        (trail nodes p (pathBelow src.uri l (k + 1) children)) :=
      way_pathBelow p (k + 1) h.2 (fun c hmem => ⟨hc c hmem, hsound c hmem⟩) hapart
    rw [pathFrom, trail_cons h.1]
    simp only [size] at hpart ⊢
    refine ⟨forall_mem_cons.mpr ⟨⟨p + k, Nat.le_refl _, by omega, h.1⟩, fun n hn => ?_⟩, ?_,
      isChain_cons.mpr ⟨hway.head, hway.chain⟩, pairwise_cons.mpr ⟨fun n hn => ?_, hway.holds⟩,
      forall_mem_cons.mpr ⟨?_, hway.reach⟩, fun j n hfirst hlast hn hcovers => ?_⟩
    · obtain ⟨j, hfirst, hlast, hj⟩ := hway.within n hn
      exact ⟨j, by omega, by omega, hj⟩
    · rintro n ⟨⟩
      rfl
    · obtain ⟨j, hfirst, hlast, hj⟩ := hway.within n hn
      exact hpart j n (by omega) (by omega) hj
    · by_cases hstop : span.stop.offset = l.offset
      · exact .inr hstop
      · exact .inl ⟨hat.1, Int.lt_iff_le_and_ne.mpr ⟨hat.2, Ne.symm hstop⟩⟩
    · by_cases hj : j = p + k
      · rw [hj, h.1] at hn
        exact Option.some.inj hn ▸ mem_cons_self
      · exact mem_cons_of_mem _ (hway.whole j n (by omega) (by omega) hn hcovers)

theorem way_pathBelow {parent : Option Nat} (p k : Nat) : {ts : List Tree} → LieAll nodes parent (p + k) ts →
    (∀ t ∈ ts, t.Nests ∧ t.isSound src) → ts.Pairwise Apart →
      Way nodes l parent (p + k) (p + k + sizeOf ts) (trail nodes p (pathBelow src.uri l k ts))
  | [], _, _, _ => by
    rw [pathBelow, trail, filterMap_nil, sizeOf]
    refine ⟨by simp, by simp, .nil, .nil, by simp, fun j n hfirst hlast => ?_⟩
    omega
  | t :: ts, h, hts, hapart => by
    obtain ⟨hnests, hsound⟩ := hts t mem_cons_self
    have hspan := (lies_of_isSound hsound).1
    have hrest := way_pathBelow p (k + t.size) (by rw [← Nat.add_assoc]; exact h.2)
      (fun c hc => hts c (mem_cons_of_mem t hc)) (pairwise_cons.mp hapart).2
    -- a node of the first tree that covers the place makes that tree cover it
    have hcovers (j : Nat) (n : Node) (hlo : p + k ≤ j) (hhi : j < p + k + t.size) (hn : nodes[j]? = some n)
        (hc : n.span.Covers l) : t.span.Covers l := by
      obtain ⟨q, u, hu, -, hholds⟩ := part_of_lies h.1 hnests hlo hhi
      exact (hu.span_eq hn ▸ hc).mono hholds
    simp only [sizeOf, pathBelow]
    rw [← Nat.add_assoc p k] at hrest
    have hbehind (hstop : ¬ t.span.Covers l) :
        Way nodes l parent (p + k) (p + k + (t.size + sizeOf ts))
          (trail nodes p (pathBelow src.uri l (k + t.size) ts)) :=
      hrest.widen (by omega) (by omega) fun j n hlo hhi hj hn hc => hstop (hcovers j n hlo (by omega) hn hc)
    split
    · rename_i hat
      refine hbehind fun hc => ?_
      rw [hspan.contains_iff.mpr ⟨hc.1, Int.le_of_lt hc.2⟩] at hat
      cases hat
    rename_i hat
    have hat : t.span.contains src.uri l := by simpa using hat
    have hway := way_pathFrom p k h.1 hnests hsound hat
    split
    · rename_i hstop
      have hnot : ¬ t.span.Covers l := fun hc => absurd (beq_iff_eq.mp hstop) (Int.ne_of_gt hc.2)
      split
      · rename_i hnil
        refine hway.widen (Nat.le_refl _) (by omega) fun j n hlo hhi hj hn hc => ?_
        rw [hnil] at hrest
        cases hrest.whole j n (by omega) (by omega) hn hc
      · exact hbehind hnot
    · rename_i hstop
      refine hway.widen (Nat.le_refl _) (by omega) fun j n hlo hhi hj hn hc => ?_
      -- a sibling is apart from the first tree, which reaches beyond the place
      obtain ⟨c, hmem, q, u, hu, -, hholds⟩ := part_of_lieAll h.2 (fun c hc => (hts c (mem_cons_of_mem t hc)).1)
        (show p + k + t.size ≤ j by omega) (by omega)
      have hc := (hu.span_eq hn ▸ hc).mono hholds
      have hat := hspan.contains_iff.mp hat
      have hstop : t.span.stop.offset ≠ l.offset := by simpa using hstop
      obtain hle | hle := (pairwise_cons.mp hapart).1 c hmem
      · have := hc.1
        omega
      · have := hc.2
        omega

end

end Tree

theorem find?_placeBy {α : Type} (uri : α → Uri) (a : α) (l : List α) :
    (placeBy uri a l).find? (uri · == uri a) = some a := by
  fun_induction placeBy uri a l <;> grind

namespace Forest

/-- Nodes hold their children, and siblings share at most a border. -/
def IsNested (f : Forest) (r : Node) : Prop :=
  ∀ n ∈ f.within r, (∀ c ∈ f.children n, n.span.Holds c.span) ∧
    (f.children n).Pairwise fun a b => a.span.Apart b.span

/-- The nodes around a place go from one of them up to the root. Each node that covers the place is among them,
and the others end there and lie within all that cover it. -/
structure IsAround (f : Forest) (r : Node) (l : Location) (ns : List Node) : Prop where
  chain : ns.IsChain fun c m => f.parent? c = some m
  root : r.span.start.offset ≤ l.offset → l.offset ≤ r.span.stop.offset → ns.getLast? = some r
  covering : ∀ n ∈ f.within r, n.span.Covers l → n ∈ ns
  other : ∀ n ∈ ns, n ∈ f.within r ∧ (n.span.Covers l ∨
    n.span.stop.offset = l.offset ∧ ∀ m ∈ f.within r, m.span.Covers l → m.span.Holds n.span)

variable {f : Forest} {r : Node} {t : Tree} {src : Source}

theorem mem_within_of_lies (h : t.Lies f.nodes r.parent r.id) (hr : f.node? r.id = some r) {n : Node} :
    n ∈ f.within r ↔ ∃ j, r.id ≤ j ∧ j < r.id + t.size ∧ f.nodes[j]? = some n := by
  obtain ⟨m, hm, -, hstop, -⟩ := h.head
  obtain rfl : m = r := Option.some.inj (hm.symm.trans hr)
  rw [within, mem_extract, hstop]

theorem isNested_of_lies (h : t.Lies f.nodes r.parent r.id) (hr : f.node? r.id = some r) (hn : t.Nests) :
    f.IsNested r := by
  intro n hmem
  obtain ⟨j, hfirst, hlast, hj⟩ := (mem_within_of_lies h hr).mp hmem
  obtain ⟨q, ⟨shape, span, children⟩, hu, hnests, -⟩ := Tree.part_of_lies h hn hfirst hlast
  obtain ⟨-, hin, hapart⟩ := hnests
  obtain rfl := Option.some.inj (hj.symm.trans hu.1)
  have hspans := hu.2.spans_eq
  constructor
  · intro c hc
    obtain ⟨d, hd, hspan⟩ := mem_map.mp (hspans ▸ mem_map_of_mem hc)
    rw [← hspan]
    exact ⟨(hin d hd).1, (hin d hd).2.2⟩
  · have hapart : (children.map (·.span)).Pairwise Span.Apart := pairwise_map.mpr hapart
    rw [← hspans] at hapart
    exact pairwise_map.mp hapart

theorem isAround_of_lies (h : t.Lies f.nodes r.parent r.id) (hr : f.node? r.id = some r) (hn : t.Nests)
    (hs : t.isSound src) (htree : f.IsTree r) (l : Location) :
    f.IsAround r l ((t.positionsAround src.uri l).filterMap fun i => f.node? (r.id + i)) := by
  have hspan := h.span_eq hr
  have hroot := hspan ▸ (Tree.lies_of_isSound hs).1
  unfold Tree.positionsAround
  split
  · rename_i hat
    have hway := Tree.way_pathFrom r.id 0 h hn hs hat
    rw [filterMap_reverse]
    change f.IsAround r l (Tree.trail f.nodes r.id (Tree.pathFrom src.uri l 0 t)).reverse
    have hin (n : Node) (hmem : n ∈ Tree.trail f.nodes r.id (Tree.pathFrom src.uri l 0 t)) : n ∈ f.within r :=
      (mem_within_of_lies h hr).mpr (hway.within n hmem)
    have hcovering (n : Node) (hmem : n ∈ f.within r) (hc : n.span.Covers l) :
        n ∈ Tree.trail f.nodes r.id (Tree.pathFrom src.uri l 0 t) := by
      obtain ⟨j, hfirst, hlast, hj⟩ := (mem_within_of_lies h hr).mp hmem
      exact hway.whole j n hfirst hlast hj hc
    refine ⟨isChain_reverse.mpr (hway.chain.imp_of_mem_imp fun m c hm hc hparent => ?_), fun _ _ => ?_,
      fun n hmem hc => mem_reverse.mpr (hcovering n hmem hc), fun n hmem => ?_⟩
    · rw [parent?, hparent]
      exact htree.found m (hin m hm)
    · obtain ⟨shape, span, children⟩ := t
      rw [getLast?_reverse, Tree.pathFrom, Tree.trail_cons hr, head?_cons]
    · rw [mem_reverse] at hmem
      refine ⟨hin n hmem, ?_⟩
      by_cases hc : n.span.Covers l
      · exact .inl hc
      · refine .inr ⟨(hway.reach n hmem).resolve_left hc, fun m hm hcm => ?_⟩
        exact Tree.holds_of_covers hway.holds (hcovering m hm hcm) hmem hcm hc
  · rename_i hat
    have hnot : ¬ (r.span.start.offset ≤ l.offset ∧ l.offset ≤ r.span.stop.offset) := fun hle =>
      hat (hspan ▸ hroot.contains_iff.mpr hle)
    refine ⟨.nil, fun hfirst hlast => absurd ⟨hfirst, hlast⟩ hnot, fun n hmem hc => ?_, by simp⟩
    obtain ⟨j, hfirst, hlast, hj⟩ := (mem_within_of_lies h hr).mp hmem
    obtain ⟨q, u, hu, -, hholds⟩ := Tree.part_of_lies h hn hfirst hlast
    have hc := (hu.span_eq hj ▸ hc).mono (hspan ▸ hholds)
    exact absurd ⟨hc.1, Int.le_of_lt hc.2⟩ hnot

end Forest

namespace Source

/-- A text that is read without remarks leaves nodes that hold their children, under a root for all of it; the
nodes around a place are those that cover it, and at most such within them as end there. -/
theorem around_covers {s : Source} {room : Option Nat} (hroom : room ≠ some 0) (h : (s.parse room).remarks = [])
    (f : Forest) : ∃ r, (f.plant (s.parse room)).root? s.uri = some r ∧
      r.span.start.offset = 0 ∧ r.span.stop.offset = s.size ∧ (f.plant (s.parse room)).IsTree r ∧
      (f.plant (s.parse room)).IsNested r ∧
      ∀ l, (f.plant (s.parse room)).IsAround r l ((f.plant (s.parse room)).around s.uri l) := by
  obtain ⟨-, -, hsound, hquiet⟩ := s.parse_steady room
  rw [remarks_parse, reverse_eq_nil_iff] at h
  obtain ⟨-, hnests⟩ := hquiet hroom h
  obtain ⟨r, hr, htree⟩ := f.isTree_plant (s.parse room)
  obtain ⟨-, -, hlies⟩ := Tree.place_spec none f.nodes (s.parse room).tree
  obtain ⟨n, hn, hid, -, hparent⟩ := hlies.head
  obtain rfl : n = r := Option.some.inj (hn.symm.trans hr)
  have hspan := (hlies.span_eq hr).trans (s.root_parse room).2
  have hplanted : (f.plant (s.parse room)).planted? s.uri = some ⟨s.parse room, n.id⟩ := by
    rw [hid]
    exact find?_placeBy Planted.uri ⟨s.parse room, _⟩ _
  have hlies : Tree.Lies (f.plant (s.parse room)).nodes n.parent n.id (s.parse room).tree := by
    rw [hparent, hid]
    exact hlies
  rw [← hid] at hr
  refine ⟨n, ?_, ?_, ?_, htree, Forest.isNested_of_lies hlies hr hnests, fun l => ?_⟩
  · rw [Forest.root?, hplanted, Option.bind_some, hr]
  · rw [hspan]
    rfl
  · rw [hspan]
    exact s.offset_endLocation
  · rw [Forest.around, hplanted]
    exact Forest.isAround_of_lies hlies hr hnests hsound htree l

def cascaded : Source := .replLine 1 (Bytes.ofString "x foo; bar: 1.")

/-- Between the messages of a cascade lies what covers the place, and the message that ends there. -/
theorem around_covers_cascaded : (cascaded.parse none).remarks = [] ∧
    ((Forest.empty.plant (cascaded.parse none)).around cascaded.uri (cascaded.locationAt 5)).map (·.label) =
      ["Symbol 2-5", "UnaryMessage 2-5", "CascadeExpression 0-13", "REPLExpression 0-13", "REPLLine 0-14"] ∧
    ∃ r, (Forest.empty.plant (cascaded.parse none)).root? cascaded.uri = some r ∧
      (Forest.empty.plant (cascaded.parse none)).IsAround r (cascaded.locationAt 5)
        ((Forest.empty.plant (cascaded.parse none)).around cascaded.uri (cascaded.locationAt 5)) := by
  have h : (cascaded.parse none).remarks = [] := by decide +kernel
  obtain ⟨r, hr, -, -, -, -, haround⟩ := around_covers (Option.some_ne_none 0).symm h .empty
  exact ⟨h, by decide +kernel, r, hr, haround _⟩

end Source

end Parlance
