import Mathlib.Data.List.Forall2
import Parlance.Program
import Parlance.Proofs.CleanTrees
/-!
How trees lie in the array of a forest.
-/
namespace Parlance

open List

namespace Tree

mutual

def Lies (nodes : Array Node) (parent : Option Nat) (i : Nat) : Tree → Prop
  | node shape span children =>
    nodes[i]? = some ⟨i, i + 1 + sizeOf children, parent, shape, span, starts (i + 1) children⟩ ∧
      LieAll nodes (some i) (i + 1) children

def LieAll (nodes : Array Node) (parent : Option Nat) (i : Nat) : List Tree → Prop
  | [] => True
  | t :: ts => Lies nodes parent i t ∧ LieAll nodes parent (i + t.size) ts

end

def Kept (before after : Array Node) : Prop :=
  ∀ (i : Nat) (n : Node), before[i]? = some n → after[i]? = some n

theorem Kept.trans {a b c : Array Node} (hab : Kept a b) (hbc : Kept b c) : Kept a c :=
  fun i n h => hbc i n (hab i n h)

theorem kept_push (nodes : Array Node) (n : Node) : Kept nodes (nodes.push n) := by
  intro i m h
  grind

mutual

theorem Lies.mono {a b : Array Node} (h : Kept a b) {parent : Option Nat} {i : Nat} :
    {t : Tree} → Lies a parent i t → Lies b parent i t
  | .node _ _ _, ht => ⟨h _ _ ht.1, LieAll.mono h ht.2⟩

theorem LieAll.mono {a b : Array Node} (h : Kept a b) {parent : Option Nat} {i : Nat} :
    {ts : List Tree} → LieAll a parent i ts → LieAll b parent i ts
  | [], _ => True.intro
  | _ :: _, ht => ⟨Lies.mono h ht.1, LieAll.mono h ht.2⟩

end

mutual

theorem place_spec (parent : Option Nat) (nodes : Array Node) : (t : Tree) →
    (place parent nodes t).size = nodes.size + t.size ∧ Kept nodes (place parent nodes t) ∧
      Lies (place parent nodes t) parent nodes.size t
  | .node shape span children => by
    let n : Node := ⟨nodes.size, nodes.size + 1 + sizeOf children, parent, shape, span,
      starts (nodes.size + 1) children⟩
    obtain ⟨hsize, hkept, hlie⟩ := placeAll_spec (some nodes.size) (nodes.push n) children
    rw [Array.size_push] at hsize hlie
    refine ⟨?_, (kept_push nodes n).trans hkept, hkept _ _ ?_, hlie⟩
    · simp only [place, size]
      rw [hsize]
      omega
    · exact Array.getElem?_push_size

theorem placeAll_spec (parent : Option Nat) (nodes : Array Node) : (ts : List Tree) →
    (placeAll parent nodes ts).size = nodes.size + sizeOf ts ∧ Kept nodes (placeAll parent nodes ts) ∧
      LieAll (placeAll parent nodes ts) parent nodes.size ts
  | [] => ⟨rfl, fun _ _ h => h, True.intro⟩
  | t :: ts => by
    obtain ⟨hsize, hkept, hlies⟩ := place_spec parent nodes t
    obtain ⟨hsizes, hkepts, hlie⟩ := placeAll_spec parent (place parent nodes t) ts
    rw [hsize] at hsizes hlie
    refine ⟨?_, hkept.trans hkepts, hlies.mono hkepts, hlie⟩
    simp only [placeAll, sizeOf]
    rw [hsizes]
    omega

end

end Tree

section

variable {α : Type} {uri : α → Uri} {a b : α} {l : List α}

theorem mem_placeBy (h : b ∈ placeBy uri a l) : b = a ∨ b ∈ l := by
  fun_induction placeBy uri a l <;> grind

theorem self_mem_placeBy : a ∈ placeBy uri a l := by
  fun_induction placeBy uri a l <;> grind

theorem sorted_placeBy (h : l.Pairwise (uri · < uri ·)) : (placeBy uri a l).Pairwise (uri · < uri ·) := by
  fun_induction placeBy uri a l with
  | case1 => exact pairwise_singleton _ _
  | case2 b l hlt => grind
  | case3 b l hlt heq => simp_all
  | case4 b l hlt hne ih =>
    refine pairwise_cons.mpr ⟨fun x hx => ?_, ih (pairwise_cons.mp h).2⟩
    obtain rfl | hx := mem_placeBy hx
    · grind
    · exact (pairwise_cons.mp h).1 x hx

theorem mem_map_placeBy {u : Uri} : u ∈ (placeBy uri a l).map uri ↔ u = uri a ∨ u ∈ l.map uri := by
  fun_induction placeBy uri a l <;> grind

end

namespace Forest

variable {f : Forest} {c n r : Node} {t : Tree} {i : Nat}

structure Stands (f : Forest) (n : Node) (t : Tree) : Prop where
  at_ : f.node? n.id = some n
  lies : t.Lies f.nodes n.parent n.id
  proper : t.Proper
  planted : ∃ r ∈ f.roots, r.id ≤ n.id ∧ n.stop ≤ r.stop

theorem Stands.eq_node {shape : Shape} {span : Span} {children : List Tree}
    (h : f.Stands n (.node shape span children)) :
    n = ⟨n.id, n.id + 1 + Tree.sizeOf children, n.parent, shape, span, Tree.starts (n.id + 1) children⟩ :=
  Option.some.inj (h.at_.symm.trans h.lies.1)

theorem Stands.stop_eq (h : f.Stands n t) : n.stop = n.id + t.size := by
  obtain ⟨shape, span, children⟩ := t
  have hstop : n.stop = n.id + 1 + Tree.sizeOf children := congrArg Node.stop h.eq_node
  simp only [Tree.size]
  omega

theorem Stands.shape_eq (h : f.Stands n t) : n.shape = t.shape := by
  obtain ⟨shape, span, children⟩ := t
  exact congrArg Node.shape h.eq_node

theorem stands_of_lies (hr : r ∈ f.roots) (hn : f.node? n.id = some n)
    (ht : t.Lies f.nodes n.parent n.id) (hp : t.Proper) (hfirst : r.id ≤ n.id)
    (hlast : n.id + t.size ≤ r.stop) : f.Stands n t := by
  have hstop : n.stop = n.id + t.size := by
    obtain ⟨shape, span, children⟩ := t
    have hstop := congrArg Node.stop (Option.some.inj (hn.symm.trans ht.1))
    simp only at hstop
    simp only [Tree.size]
    omega
  exact ⟨hn, ht, hp, r, hr, hfirst, hstop ▸ hlast⟩

theorem stands_of_lieAll {parent : Option Nat} (hr : r ∈ f.roots) {ts : List Tree}
    (ht : Tree.LieAll f.nodes parent i ts) (hp : ∀ t ∈ ts, t.Proper) (hfirst : r.id ≤ i)
    (hlast : i + Tree.sizeOf ts ≤ r.stop) :
    List.Forall₂ (fun c t => f.Stands c t ∧ c.parent = parent ∧ i ≤ c.id ∧ c.stop ≤ i + Tree.sizeOf ts)
      ((Tree.starts i ts).filterMap f.node?) ts := by
  induction ts generalizing i with
  | nil => exact .nil
  | cons t ts ih =>
    obtain ⟨h, hs⟩ := ht
    simp only [Tree.sizeOf] at hlast ⊢
    obtain ⟨n, hn, hid, hparent⟩ : ∃ n, f.node? i = some n ∧ n.id = i ∧ n.parent = parent := by
      obtain ⟨shape, span, children⟩ := t
      exact ⟨_, h.1, rfl, rfl⟩
    have hstands : f.Stands n t :=
      stands_of_lies hr (hid ▸ hn) (by rw [hparent, hid]; exact h) (hp t mem_cons_self) (by omega) (by omega)
    rw [Tree.starts, filterMap_cons_some hn]
    refine .cons ⟨hstands, hparent, by omega, ?_⟩ ?_
    · rw [hstands.stop_eq]
      omega
    · refine (ih hs (fun u hu => hp u (mem_cons_of_mem t hu)) (by omega) (by omega)).imp ?_
      grind

theorem Stands.children (h : f.Stands n t) :
    List.Forall₂ (fun c u => f.Stands c u ∧ c.parent = some n.id ∧ n.id < c.id ∧ c.stop ≤ n.stop)
      (f.children n) t.children := by
  obtain ⟨r, hr, hfirst, hlast⟩ := h.planted
  have hstop := h.stop_eq
  obtain ⟨shape, span, children⟩ := t
  have hchildren : n.children = Tree.starts (n.id + 1) children := congrArg Node.children h.eq_node
  have hproper : ∀ u ∈ children, u.Proper := by
    cases h.proper with
    | node _ hc => exact hc
  simp only [Tree.size] at hstop
  have hall := stands_of_lieAll hr h.lies.2 hproper (by omega) (by omega)
  rw [Forest.children, hchildren]
  refine hall.imp ?_
  grind

/-! ### The nodes of a program -/

/-- Every document lies where its root is said to be. -/
def Sown (f : Forest) : Prop :=
  ∀ p ∈ f.plants, p.document.tree.Lies f.nodes none p.root ∧ p.document.tree.Proper

theorem Sown.plant (h : f.Sown) {d : Document} (hd : d.tree.Proper) : (f.plant d).Sown := by
  intro p hp
  obtain ⟨-, hkept, hlies⟩ := Tree.place_spec none f.nodes d.tree
  rcases mem_placeBy hp with rfl | hp
  · exact ⟨hlies, hd⟩
  · exact ⟨(h p hp).1.mono hkept, (h p hp).2⟩

theorem sown_ofDocuments {ds : List Document} (h : ∀ d ∈ ds, d.tree.Proper) : (ofDocuments ds).Sown := by
  have hfold (ds : List Document) (h : ∀ d ∈ ds, d.tree.Proper) (f : Forest) (hf : f.Sown) :
      (ds.foldl Forest.plant f).Sown := by
    induction ds generalizing f with
    | nil => exact hf
    | cons d ds ih =>
      exact ih (fun e he => h e (mem_cons_of_mem d he)) _ (hf.plant (h d mem_cons_self))
  exact hfold ds h empty nofun

theorem document_of_mem_plants {ds : List Document} {q : Planted} (h : q ∈ (ofDocuments ds).plants) :
    q.document ∈ ds := by
  have hfold (ds : List Document) (f : Forest) (h : q ∈ (ds.foldl Forest.plant f).plants) :
      q.document ∈ ds ∨ q ∈ f.plants := by
    induction ds generalizing f with
    | nil => exact .inr h
    | cons d ds ih =>
      rcases ih _ h with h | h
      · exact .inl (mem_cons_of_mem d h)
      · rcases mem_placeBy h with rfl | h
        · exact .inl mem_cons_self
        · exact .inr h
  exact (hfold ds empty h).resolve_right nofun

theorem Sown.root (h : f.Sown) (hr : r ∈ f.roots) : ∃ p ∈ f.plants, f.Stands r p.document.tree ∧ r.parent = none := by
  obtain ⟨p, hp, hn⟩ := mem_filterMap.mp hr
  obtain ⟨hlies, hproper⟩ := h p hp
  obtain ⟨hid, hparent, hstop⟩ : r.id = p.root ∧ r.parent = none ∧
      r.stop = p.root + p.document.tree.size := by
    generalize p.document.tree = t at hlies
    obtain ⟨shape, span, children⟩ := t
    have hr := Option.some.inj (hn.symm.trans hlies.1)
    grind [Tree.size]
  grind [stands_of_lies]

def Has (f : Forest) (n : Node) : Prop := ∃ t, f.Stands n t

def Below (f : Forest) (n : Node) : Prop := ∃ m, f.Has m ∧ n ∈ f.children m

def BelowIn (f : Forest) (i j : Nat) (n : Node) : Prop :=
  ∃ m, f.Has m ∧ i ≤ m.id ∧ m.stop ≤ j ∧ n ∈ f.children m

theorem BelowIn.mono {j i' j' : Nat} (h : f.BelowIn i j n) (hi : i' ≤ i) (hj : j ≤ j') : f.BelowIn i' j' n :=
  let ⟨m, hm, hfirst, hlast, hc⟩ := h
  ⟨m, hm, Nat.le_trans hi hfirst, Nat.le_trans hlast hj, hc⟩

mutual

/-- Every position of a tree is that of a node, and all but the first are those of children. -/
theorem has_below {r : Node} (hr : r ∈ f.roots) {parent : Option Nat} {i j : Nat} :
    {t : Tree} → t.Lies f.nodes parent i → t.Proper → r.id ≤ i → i + t.size ≤ r.stop →
      i ≤ j → j < i + t.size → ∃ n, n.id = j ∧ f.Has n ∧ (i < j → f.BelowIn i (i + t.size) n)
  | .node shape span children, h, hp, hfirst, hlast, hij, hj => by
    let n : Node := ⟨i, i + 1 + Tree.sizeOf children, parent, shape, span, Tree.starts (i + 1) children⟩
    have hn : f.node? n.id = some n := h.1
    have hhas : f.Has n := ⟨_, stands_of_lies hr hn h hp hfirst hlast⟩
    by_cases hji : j = i
    · exact ⟨n, hji.symm, hhas, fun hlt => by omega⟩
    · simp only [Tree.size] at hlast hj ⊢
      have hproper : ∀ u ∈ children, u.Proper := by
        cases hp with
        | node _ hc => exact hc
      obtain ⟨m, hm, hhasm, hbelow⟩ := has_among hr h.2 hproper hhas (fun c hc => hc)
        (show r.id ≤ i + 1 by omega) (by omega) (show i + 1 ≤ j by omega) (by omega)
      refine ⟨m, hm, hhasm, fun _ => ?_⟩
      rcases hbelow with hc | hbelow
      · exact ⟨n, hhas, Nat.le_refl _, Nat.le_of_eq (by simp only [n]; omega), hc⟩
      · exact hbelow.mono (by omega) (by omega)

theorem has_among {r : Node} (hr : r ∈ f.roots) {parent : Option Nat} {m : Node} {i j : Nat} :
    {ts : List Tree} → Tree.LieAll f.nodes parent i ts → (∀ t ∈ ts, t.Proper) → f.Has m →
      (∀ c ∈ (Tree.starts i ts).filterMap f.node?, c ∈ f.children m) → r.id ≤ i →
      i + Tree.sizeOf ts ≤ r.stop → i ≤ j → j < i + Tree.sizeOf ts →
      ∃ n, n.id = j ∧ f.Has n ∧ (n ∈ f.children m ∨ f.BelowIn i (i + Tree.sizeOf ts) n)
  | [], _, _, _, _, _, _, hij, hj => by
    simp only [Tree.sizeOf] at hj
    omega
  | t :: ts, h, hp, hm, hcs, hfirst, hlast, hij, hj => by
    simp only [Tree.sizeOf] at hlast hj ⊢
    rw [Tree.starts] at hcs
    by_cases hjt : j < i + t.size
    · obtain ⟨n, hid, hn, hbelow⟩ :=
        has_below hr h.1 (hp t mem_cons_self) hfirst (by omega) hij hjt
      refine ⟨n, hid, hn, ?_⟩
      by_cases hlt : i < j
      · exact .inr ((hbelow hlt).mono (Nat.le_refl _) (by omega))
      · obtain rfl : i = n.id := by omega
        have hat : f.node? n.id = some n := hn.choose_spec.at_
        grind
    · obtain ⟨n, hid, hn, hbelow⟩ := has_among hr h.2 (fun u hu => hp u (mem_cons_of_mem t hu)) hm
        (fun c hc => hcs c (by
          grind))
        (by omega) (by omega) (show i + t.size ≤ j by omega) (by omega)
      exact ⟨n, hid, hn, hbelow.imp_right (·.mono (by omega) (by omega))⟩

end

theorem Has.at_ (h : f.Has n) : f.node? n.id = some n := h.choose_spec.at_

theorem Has.lt_size (h : f.Has n) : n.id < f.nodes.size :=
  (Array.getElem?_eq_some_iff.mp h.at_).1

theorem Has.eq_of_id {m : Node} (hn : f.Has n) (hm : f.Has m) (h : n.id = m.id) : n = m :=
  Option.some.inj (hn.at_.symm.trans (h ▸ hm.at_))

theorem Has.bne_id {m : Node} (hn : f.Has n) (hm : f.Has m) (h : n ≠ m) : (n.id != m.id) :=
  bne_iff_ne.mpr fun hid => h (hn.eq_of_id hm hid)

theorem Has.lt_stop (h : f.Has n) : n.id < n.stop := by
  obtain ⟨⟨shape, span, children⟩, h⟩ := h
  rw [h.stop_eq]
  simp only [Tree.size]
  omega

theorem mem_extract {nodes : Array Node} {a b : Nat} :
    n ∈ (nodes.extract a b).toList ↔ ∃ j, a ≤ j ∧ j < b ∧ nodes[j]? = some n := by
  rw [mem_iff_getElem?]
  simp only [Array.getElem?_toList, Array.getElem?_extract]
  constructor
  · grind
  · rintro ⟨j, haj, hjb, hj⟩
    have hlt := (Array.getElem?_eq_some_iff.mp hj).1
    refine ⟨j - a, ?_⟩
    grind

theorem Has.mem_within (h : f.Has n) : c ∈ f.within n ↔ f.Has c ∧ n.id ≤ c.id ∧ c.id < n.stop := by
  obtain ⟨t, ht⟩ := h
  obtain ⟨r, hr, hfirst, hlast⟩ := ht.planted
  rw [within, mem_extract]
  constructor
  · rintro ⟨j, hnj, hjn, hj⟩
    have hstop := ht.stop_eq
    obtain ⟨m, rfl, hm, -⟩ := has_below hr ht.lies ht.proper hfirst (by omega) hnj (by omega)
    have hmc : m = c := Option.some.inj (hm.at_.symm.trans hj)
    exact hmc ▸ ⟨hm, hnj, hjn⟩
  · rintro ⟨hc, hnc, hcn⟩
    exact ⟨c.id, hnc, hcn, hc.at_⟩

theorem Sown.mem_all (h : f.Sown) : n ∈ f.all ↔ f.Has n := by
  rw [all, mem_flatMap]
  constructor
  · rintro ⟨r, hr, hn⟩
    obtain ⟨p, -, hroot, -⟩ := h.root hr
    exact ((Has.mem_within ⟨_, hroot⟩).mp hn).1
  · intro hn
    obtain ⟨t, ht⟩ := hn
    obtain ⟨r, hr, hfirst, hlast⟩ := ht.planted
    obtain ⟨p, -, hroot, -⟩ := h.root hr
    have hlt := Has.lt_stop ⟨t, ht⟩
    exact ⟨r, hr, (Has.mem_within ⟨_, hroot⟩).mpr ⟨⟨t, ht⟩, hfirst, by omega⟩⟩

/-! ### Upwards -/

theorem exists_of_mem {α β : Type} {R : α → β → Prop} {as : List α} {bs : List β}
    (h : List.Forall₂ R as bs) {a : α} (ha : a ∈ as) : ∃ b ∈ bs, R a b := by
  induction h with
  | nil => cases ha
  | cons hr _ ih => grind

theorem Has.child (h : f.Has n) (hc : c ∈ f.children n) :
    f.Has c ∧ c.parent = some n.id ∧ n.id < c.id ∧ c.stop ≤ n.stop := by
  obtain ⟨t, ht⟩ := h
  obtain ⟨u, -, hs, hrest⟩ := exists_of_mem ht.children hc
  exact ⟨⟨u, hs⟩, hrest⟩

theorem Sown.within_root (h : f.Sown) (hr : r ∈ f.roots) (hn : n ∈ f.within r) :
    n = r ∨ ∃ q ∈ f.within r, q.stop ≤ r.stop ∧ n ∈ f.children q := by
  obtain ⟨p, -, hs, -⟩ := h.root hr
  have hroot : f.Has r := ⟨_, hs⟩
  have hstop := hs.stop_eq
  obtain ⟨hhas, hfirst, hlast⟩ := hroot.mem_within.mp hn
  obtain ⟨m, hid, hm, hbelow⟩ := has_below hr hs.lies hs.proper (Nat.le_refl _) (by omega) hfirst (by omega)
  obtain rfl := hm.eq_of_id hhas hid
  by_cases hlt : r.id < m.id
  · obtain ⟨q, hq, hfirst, hlast, hc⟩ := hbelow hlt
    have := hq.lt_stop
    exact .inr ⟨q, hroot.mem_within.mpr ⟨hq, hfirst, by omega⟩, by omega, hc⟩
  · exact .inl (hm.eq_of_id hroot (by omega))

theorem Sown.root_or_below (h : f.Sown) (hn : f.Has n) : n ∈ f.roots ∨ f.Below n := by
  obtain ⟨r, hr, hmem⟩ := mem_flatMap.mp (h.mem_all.mpr hn)
  obtain rfl | ⟨q, hq, -, hc⟩ := h.within_root hr hmem
  · exact .inl hr
  · obtain ⟨p, -, hs, -⟩ := h.root hr
    exact .inr ⟨q, ((Has.mem_within ⟨_, hs⟩).mp hq).1, hc⟩

theorem Has.parent?_eq (h : f.Has n) (hc : c ∈ f.children n) : f.parent? c = some n := by
  rw [parent?, (h.child hc).2.1]
  exact h.at_

theorem Sown.upwards_root (h : f.Sown) (hr : r ∈ f.roots) : f.upwards r = [r] := by
  obtain ⟨p, -, hs, hparent⟩ := h.root hr
  rw [upwards, upFrom, hs.at_]
  simp only [hparent]

theorem Has.upwards_child (h : f.Has n) (hc : c ∈ f.children n) : f.upwards c = c :: f.upwards n := by
  obtain ⟨hhas, hparent, hlt, -⟩ := h.child hc
  rw [upwards, upFrom, hhas.at_]
  simp only [hparent, hlt, if_true]
  rfl

theorem Sown.upwards_cons (h : f.Sown) (hn : f.Has n) : f.upwards n = n :: (f.upwards n).tail := by
  rcases h.root_or_below hn with hr | ⟨m, hm, hc⟩
  · rw [h.upwards_root hr]
    rfl
  · rw [hm.upwards_child hc]
    rfl

theorem Sown.induction (h : f.Sown) {motive : Node → Prop} (root : ∀ r ∈ f.roots, motive r)
    (child : ∀ n c, f.Has n → c ∈ f.children n → motive n → motive c) (hn : f.Has n) : motive n := by
  generalize hid : n.id = i
  induction i using Nat.strongRecOn generalizing n with
  | _ i ih =>
    rcases h.root_or_below hn with hr | ⟨m, hm, hc⟩
    · exact root n hr
    · have hlt := (hm.child hc).2.2.1
      exact child m n hm hc (ih m.id (hid ▸ hlt) hm rfl)

theorem Sown.has_of_mem_upwards (h : f.Sown) {m : Node} (hn : f.Has n) (hm : m ∈ f.upwards n) : f.Has m := by
  refine h.induction (motive := fun n => m ∈ f.upwards n → f.Has m) (fun r hr hm => ?_)
    (fun n c hn hc ih hm => ?_) hn hm
  · rw [h.upwards_root hr, mem_singleton] at hm
    obtain ⟨p, -, hs, -⟩ := h.root hr
    exact hm ▸ ⟨_, hs⟩
  · rw [hn.upwards_child hc] at hm
    rcases mem_cons.mp hm with rfl | hm
    · exact (hn.child hc).1
    · exact ih hm

end Forest

end Parlance
