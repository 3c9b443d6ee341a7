import Parlance.Proofs.Roles
import Parlance.Proofs.ValidTrees
/-!
What names mean are nodes of the program that declare something.
-/
namespace Parlance

open List

theorem mem_of_lookup {α β : Type} [BEq α] [LawfulBEq α] {k : α} {a : β} {l : List (α × β)}
    (h : l.lookup k = some a) : (k, a) ∈ l := by
  obtain ⟨before, after, rfl, -⟩ := lookup_eq_some_iff.mp h
  simp

namespace Forest

variable {f : Forest} {n : Node} {enter : Node → Bool} {d : Node}

theorem mem_of_mem_walk {ns : List Node} (h : n ∈ walk enter ns) : n ∈ ns := by
  have hgo (skip : Nat) (ns : List Node) (h : n ∈ walk.go enter skip ns) : n ∈ ns := by
    induction ns generalizing skip <;> grind [walk.go]
  exact hgo 0 ns h

theorem Sown.has_root (hf : f.Sown) {r : Node} (hr : r ∈ f.roots) : f.Has r := by
  obtain ⟨p, -, hs, -⟩ := hf.root hr
  exact ⟨_, hs⟩

theorem Sown.has_of_mem_scopeNodes (hf : f.Sown) {scope : Node}
    (hs : f.Has scope) (h : n ∈ f.scopeNodes enter scope) : f.Has n := by
  unfold scopeNodes at h
  split at h
  · obtain ⟨l, hl, hn⟩ := mem_flatMap.mp h
    have hroot := hf.has_root (mem_filter.mp hl).1
    exact (hroot.mem_within.mp (mem_of_mem_walk hn)).1
  · exact (hs.mem_within.mp (mem_of_mem_walk h)).1

theorem Sown.has_parent (hf : f.Sown) {q : Node} (hn : f.Has n) (hq : f.parent? n = some q) :
    f.Has q ∧ q.id < n.id ∧ n ∈ f.children q := by
  rcases hf.root_or_below hn with hr | ⟨m, hm, hc⟩
  · obtain ⟨-, -, -, hparent⟩ := hf.root hr
    rw [parent?, hparent] at hq
    cases hq
  · obtain rfl := Option.some.inj ((hm.parent?_eq hc).symm.trans hq)
    exact ⟨hm, (hm.child hc).2.2.1, hc⟩

theorem Has.moduleDeclaration {m : Node} (hm : f.Has m) {e : Bool × Node} (h : e ∈ f.moduleDeclarations m) :
    f.Has e.2 ∧ (e.2.shape.isClass ∨ e.2.shape = .letBinding) := by
  unfold moduleDeclarations at h
  split at h
  · obtain ⟨c, hc, he⟩ := mem_filterMap.mp h
    obtain ⟨cs, ha, hall⟩ := hm.admits
    obtain ⟨t, ht, hstands⟩ := exists_of_mem hall hc
    have htop : Tree.isTopLevel c.shape := by grind
    obtain ⟨ds, hads, halls⟩ := hstands.has.admits
    cases hs : c.shape with
    | classNode | letBinding | exported => grind [Shape.isClass]
    | _ => simp_all [Tree.isTopLevel]
  · cases h

theorem mem_of_imported (h : f.imported? n = some d) : ∃ m ∈ f.modules, d ∈ (f.moduleDeclarations m).map (·.2) := by
  unfold imported? at h
  obtain ⟨-, -, h⟩ := Option.bind_eq_some_iff.mp h
  obtain ⟨q, -, h⟩ := Option.bind_eq_some_iff.mp h
  obtain ⟨name, -, h⟩ := Option.bind_eq_some_iff.mp h
  obtain ⟨m, hm, hfind⟩ := exists_of_findSome?_eq_some h
  exact ⟨m, (mem_filter.mp hm).1, mem_of_find?_eq_some hfind⟩

theorem Sown.imported (hf : f.Sown) (h : f.imported? n = some d) :
    f.Has d ∧ (d.shape.isClass ∨ d.shape = .letBinding) := by
  obtain ⟨m, hm, hd⟩ := mem_of_imported h
  obtain ⟨e, he, rfl⟩ := mem_map.mp hd
  exact (hf.has_root (mem_filter.mp hm).1).moduleDeclaration he

end Forest

namespace Program

variable {p : Program} {d : Node} {name : String} {k : NameKind} {n : Node} {s : Shape}

structure Grown (p : Program) : Prop where
  sown : p.toForest.Sown
  globals : p.globals = p.globalNames
  library : p.library = p.libraryNames.reverse

theorem grown_ofDocuments {ds : List Document} (h : ∀ d ∈ ds, d.tree.Proper) : (ofDocuments ds).Grown :=
  ⟨Forest.sown_ofDocuments h, rfl, rfl⟩

theorem grown_of_no_errors {ss : List Source} (h : ∀ s ∈ ss, Diagnostic.hasErrors (s.parse none).remarks = false) :
    (ofDocuments (ss.map (·.parse none))).Grown := by
  refine grown_ofDocuments fun d hd => ?_
  obtain ⟨s, hs, rfl⟩ := mem_map.mp hd
  exact s.proper_of_no_errors (h s hs)

theorem Grown.lookup_globals (hp : p.Grown) (h : p.globals.lookup name = some d) :
    ∃ m ∈ p.modules, d ∈ (p.moduleDeclarations m).map (·.2) := by
  have he := mem_of_lookup h
  rw [hp.globals] at he
  obtain ⟨m, hm, he⟩ := mem_flatMap.mp he
  obtain ⟨⟨b, e⟩, hdecl, hname⟩ := mem_filterMap.mp he
  obtain ⟨s, -, heq⟩ := Option.map_eq_some_iff.mp hname
  cases heq
  exact ⟨m, (mem_filter.mp hm).1, mem_map.mpr ⟨_, hdecl, rfl⟩⟩

theorem Grown.global (hp : p.Grown) (h : p.global? name k = some d) : p.Has d ∧ k.declares d.shape := by
  obtain ⟨hl, hk⟩ := Option.filter_eq_some_iff.mp h
  obtain ⟨m, hm, hd⟩ := hp.lookup_globals hl
  obtain ⟨e, he, rfl⟩ := mem_map.mp hd
  exact ⟨((hp.sown.has_root (mem_filter.mp hm).1).moduleDeclaration he).1, hk⟩

theorem Grown.lookup_library (hp : p.Grown) (h : p.standard? name = some d) :
    ∃ r ∈ p.roots, d ∈ p.within r ∧ d.shape.isClass := by
  have he := mem_of_lookup h
  rw [hp.library, mem_reverse] at he
  obtain ⟨r, hr, he⟩ := mem_flatMap.mp he
  obtain ⟨c, hc, hname⟩ := mem_filterMap.mp he
  obtain ⟨s, -, heq⟩ := Option.map_eq_some_iff.mp hname
  grind

theorem Grown.standard (hp : p.Grown) (h : p.standard? name = some d) : p.Has d ∧ d.shape.isClass := by
  obtain ⟨r, hr, hd, hclass⟩ := hp.lookup_library h
  exact ⟨((hp.sown.has_root hr).mem_within.mp hd).1, hclass⟩

theorem Has.typeParameter (h : p.Has n) (hd : d ∈ p.typeParameters n) : p.Has d ∧ d.shape.isTypeParameter := by
  unfold Forest.typeParameters at hd
  cases hl : p.part? (· == .typeParameterList) n with
  | none => simp [hl] at hd
  | some l =>
    simp only [hl, Option.map_some, Option.getD_some] at hd
    obtain ⟨cs, ha, hall⟩ := (h.part hl).admits
    obtain ⟨t, ht, hstands⟩ := Forest.exists_of_mem hall (by grind : d ∈ p.children l)
    grind

/-- How a name comes to its meaning: in a scope around it, where it may be imported, or where nothing around
it has that name, in what is known everywhere. -/
inductive Means (p : Program) (n : Node) (name : String) (k : NameKind) : Node → Prop where
  | parameter {scope c d : Node} (hs : scope ∈ p.scopesAround n) (hb : scope.shape = .classBody)
    (hc : p.parent? scope = some c) (hd : d ∈ p.typeParameters c) (hk : k ≠ .value) : Means p n name k d
  | declared {scope d : Node} (hs : scope ∈ p.scopesAround n)
    (hd : d ∈ p.scopeNodes (·.shape != .typeParameterList) scope) (hk : k.declares d.shape) : Means p n name k d
  | imported {scope i d : Node} (hs : scope ∈ p.scopesAround n)
    (hi : i ∈ p.scopeNodes (·.shape != .typeParameterList) scope) (hshape : i.shape = .importDirective)
    (hn : p.nameOf? i = some name) (h : p.imported? i = some d) : Means p n name k d
  | lost {scope i : Node} (hs : scope ∈ p.scopesAround n)
    (hi : i ∈ p.scopeNodes (·.shape != .typeParameterList) scope) (hshape : i.shape = .importDirective)
    (h : p.imported? i = none) : Means p n name k i
  | everywhere {d : Node} (hs : ∀ scope ∈ p.scopesAround n, p.inScope? name k scope = none)
    (h : p.global? name k = some d ∨ p.standard? name = some d) : Means p n name k d

theorem means_of_declarationOf? (h : p.declarationOf? n name k = some d) : p.Means n name k d := by
  rcases Option.or_eq_some_iff.mp h with h | ⟨hs, h⟩
  · obtain ⟨scope, hs, hin⟩ := exists_of_findSome?_eq_some h
    rcases Option.or_eq_some_iff.mp hin with hin | ⟨-, hin⟩
    · have hd := mem_of_find?_eq_some hin
      cases hc : p.parent? scope <;> grind [Means, Forest.scopeParameters]
    · obtain ⟨i, hi, hm⟩ := exists_of_findSome?_eq_some hin
      cases himp : p.imported? i <;> grind [Means, Forest.meaning?, Forest.isNamed]
  · exact .everywhere (findSome?_eq_none_iff.mp hs) ((Option.or_eq_some_iff.mp h).imp_right (·.2))

theorem declares_class (h : s.isClass) : k.declares s := by
  cases s <;> first | rfl | cases h

theorem declares_typeParameter (hk : k ≠ .value) (h : s.isTypeParameter) : k.declares s := by
  cases s <;> first | exact bne_iff_ne.mpr hk | cases h

/-- What a name means is declared as such, or imported: a binding, or nothing at all. -/
theorem Grown.meaning (hp : p.Grown) (hn : p.Has n) (h : p.declaration? n k = some d) :
    p.Has d ∧ (k.declares d.shape ∨ d.shape = .letBinding ∨ d.shape = .importDirective) := by
  have hself (h : p.closestClass? n = some d) : p.Has d ∧ k.declares d.shape := by
    have hc := find?_some h
    exact ⟨hp.sown.has_of_mem_upwards hn (mem_of_find?_eq_some h), declares_class hc⟩
  have hscope {scope : Node} (hs : scope ∈ p.scopesAround n) : p.Has scope :=
    hp.sown.has_of_mem_upwards hn (mem_filter.mp hs).1
  unfold declaration? at h
  split at h
  · exact ⟨(hself h).1, .inl (hself h).2⟩
  · exact ⟨(hself h).1, .inl (hself h).2⟩
  · obtain ⟨name, -, h⟩ := Option.bind_eq_some_iff.mp h
    cases means_of_declarationOf? h with
    | parameter hs hb hc hd hk =>
      obtain ⟨hd, hshape⟩ := Has.typeParameter (hp.sown.has_parent (hscope hs) hc).1 hd
      exact ⟨hd, .inl (declares_typeParameter hk hshape)⟩
    | declared hs hd hk => exact ⟨hp.sown.has_of_mem_scopeNodes (hscope hs) hd, .inl hk⟩
    | imported hs hi hshape hn h =>
      obtain ⟨hd, hshape⟩ := hp.sown.imported h
      exact ⟨hd, hshape.imp declares_class .inl⟩
    | lost hs hi hshape h => exact ⟨hp.sown.has_of_mem_scopeNodes (hscope hs) hi, .inr (.inr hshape)⟩
    | everywhere hs h =>
      rcases h with h | h
      · exact ⟨(hp.global h).1, .inl (hp.global h).2⟩
      · exact ⟨(hp.standard h).1, .inl (declares_class (hp.standard h).2)⟩

theorem Grown.declaration (hp : p.Grown) (hn : p.Has n) (h : p.declaration? n .value = some d) :
    p.Has d ∧ (NameKind.value.declares d.shape ∨ d.shape = .importDirective) := by
  obtain ⟨hd, hshape | hshape | hshape⟩ := hp.meaning hn h
  · exact ⟨hd, .inl hshape⟩
  · exact ⟨hd, .inl (by rw [hshape]; rfl)⟩
  · exact ⟨hd, .inr hshape⟩

end Program

end Parlance
