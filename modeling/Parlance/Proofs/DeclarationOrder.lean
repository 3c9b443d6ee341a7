import Parlance.Proofs.Recollection
import Parlance.Proofs.StackDiscipline
/-!
The order in which a program declares. What is missed while it runs is a class of a line or a binding, and its
declaration is still to come.
-/
namespace Parlance

open List

/-! ### Where declarations stand -/

namespace Tree

def isOuter : Shape → Bool
  | .classNode _ | .exported | .moduleRoot | .lineRoot => true
  | _ => false

theorem isOuter_spec {s : Shape} (h : isOuter s) :
    s.isSymbol = false ∧ s.isOperator = false ∧ s.isExpression = false ∧ s.isMessage = false ∧ s.isPattern = false ∧
      s.isTypeExpression = false ∧ s.isTypeParameter = false ∧ isMember s = false := by
  cases s <;> cases h <;> exact ⟨rfl, rfl, rfl, rfl, rfl, rfl, rfl, rfl⟩

/-- Classes stand in modules, in lines and behind `export`, which stands in modules and lines. -/
theorem Admits.outer {shape : Shape} {cs : List Tree} (h : Admits shape cs) {c : Tree} (hc : c ∈ cs)
    (ho : isOuter c.shape) : (shape = .moduleRoot ∨ shape = .lineRoot) ∧ (c.shape.isClass ∨ c.shape = .exported) ∨
      shape = .exported ∧ c.shape.isClass := by
  have hspec := isOuter_spec ho
  have hpair (q : Shape → Bool) (h : IsPair q c) : c.shape = .keywordPair := by cases h; rfl
  have hroot (h : isTopLevel c.shape ∨ isStatement c.shape) :
      c.shape.isClass ∨ c.shape = .exported := by
    cases hs : c.shape <;> simp_all [isOuter, isTopLevel, isStatement, Shape.isClass]
  cases h with
  | moduleRoot hm => exact .inl ⟨.inl rfl, hroot (.inl (hm c hc))⟩
  | lineRoot hm => exact .inl ⟨.inr rfl, hroot (.inr (hm c hc))⟩
  | letBinding hs he ht | parameter hs ht | variableNode hs ht => cases ht <;> grind -linarith
  | _ => grind -linarith [isOuter]

end Tree

namespace Forest

variable {f : Forest} {d q : Node}

def Rooted (f : Forest) : Prop := ∀ r ∈ f.roots, r.shape = .moduleRoot ∨ r.shape = .lineRoot

theorem Has.outer (hq : f.Has q) (hd : d ∈ f.children q) (ho : Tree.isOuter d.shape) :
    (q.shape = .moduleRoot ∨ q.shape = .lineRoot) ∧ (d.shape.isClass ∨ d.shape = .exported) ∨
      q.shape = .exported ∧ d.shape.isClass := by
  obtain ⟨cs, ha, hall⟩ := hq.admits
  obtain ⟨u, hu, hstands⟩ := exists_of_mem hall hd
  rw [hstands.shape_eq] at ho ⊢
  exact ha.outer hu ho

theorem Sown.mem_roots (hf : f.Sown) (hq : f.Has q) (hs : q.shape = .moduleRoot ∨ q.shape = .lineRoot) :
    q ∈ f.roots := by
  rcases hf.root_or_below hq with hr | ⟨r, hr, hmem⟩
  · exact hr
  · have hout : Tree.isOuter q.shape := by rcases hs with hs | hs <;> rw [hs] <;> rfl
    have hnot : q.shape.isClass = false ∧ q.shape ≠ .exported := by
      rcases hs with hs | hs <;> rw [hs] <;> exact ⟨rfl, nofun⟩
    rcases hr.outer hmem hout with ⟨-, h | h⟩ | ⟨-, h⟩
    · exact absurd h (by simp [hnot.1])
    · exact absurd h hnot.2
    · exact absurd h (by simp [hnot.1])

/-- A declaration stands in a root, or behind `export` in one. -/
inductive Placed (f : Forest) (r d : Node) : Prop where
  | directly (h : d ∈ f.children r)
  | exported {e : Node} (he : e ∈ f.children r) (hs : e.shape = .exported) (h : d ∈ f.children e)

theorem Sown.placed (hf : f.Sown) (hroots : f.Rooted) (hq : f.Has q) (hd : d ∈ f.children q)
    (hs : q.shape = .moduleRoot ∨ q.shape = .lineRoot ∨ q.shape = .exported) : ∃ r ∈ f.roots, f.Placed r d := by
  rcases hs with hs | hs | hs
  · exact ⟨q, hf.mem_roots hq (.inl hs), .directly hd⟩
  · exact ⟨q, hf.mem_roots hq (.inr hs), .directly hd⟩
  · rcases hf.root_or_below hq with hr | ⟨r, hr, hmem⟩
    · rcases hroots q hr with h | h <;> rw [hs] at h <;> cases h
    · rcases hr.outer hmem (by rw [hs]; rfl) with ⟨hroot, -⟩ | ⟨-, h⟩
      · exact ⟨r, hf.mem_roots hr hroot, .exported hmem hs hd⟩
      · rw [hs] at h
        cases h

theorem Sown.class_placed (hf : f.Sown) (hroots : f.Rooted) (hd : f.Has d)
    (hs : d.shape.isClass) : ∃ r ∈ f.roots, f.Placed r d := by
  have hout : Tree.isOuter d.shape := by
    cases h : d.shape <;> rw [h] at hs <;> first | rfl | cases hs
  rcases hf.root_or_below hd with hr | ⟨q, hq, hmem⟩
  · rcases hroots d hr with h | h <;> rw [h] at hs <;> cases hs
  · refine hf.placed hroots hq hmem ?_
    rcases hq.outer hmem hout with ⟨h | h, -⟩ | ⟨h, -⟩
    · exact .inl h
    · exact .inr (.inl h)
    · exact .inr (.inr h)

theorem Sown.binding_placed (hf : f.Sown) (hroots : f.Rooted) (hd : f.Has d)
    (hg : f.isGlobalBinding d) : ∃ r ∈ f.roots, f.Placed r d := by
  unfold isGlobalBinding at hg
  split at hg
  · rename_i q hparent
    obtain ⟨hq, -, hmem⟩ := hf.has_parent hd hparent
    refine hf.placed hroots hq hmem ?_
    simpa [or_assoc] using hg
  · cases hg

theorem Has.children_exported {e : Node} (he : f.Has e) (hs : e.shape = .exported) (hd : d ∈ f.children e) :
    f.children e = [d] := by
  obtain ⟨cs, ha, hall⟩ := he.admits
  grind

theorem Placed.mem_moduleDeclarations {r : Node} (hr : f.Has r) (hs : r.shape = .moduleRoot)
    (h : f.Placed r d) (hd : d.shape.isClass ∨ d.shape = .letBinding) : ∃ e ∈ f.moduleDeclarations r, e.2 = d := by
  rw [moduleDeclarations, if_pos (by simp [hs])]
  cases h with
  | directly h =>
    refine ⟨(false, d), mem_filterMap.mpr ⟨d, h, ?_⟩, rfl⟩
    grind
  | exported he hs h =>
    refine ⟨(true, d), mem_filterMap.mpr ⟨_, he, ?_⟩, rfl⟩
    rw [hs, (hr.child he).1.children_exported hs h]
    rfl

theorem Has.head_child {n : Node} {ds : List Node} (h : f.Has n) (hd : f.children n = d :: ds) : d.id = n.id + 1 := by
  obtain ⟨⟨shape, span, children⟩, ht⟩ := h
  have hchildren : n.children = Tree.starts (n.id + 1) children := congrArg Node.children ht.eq_node
  cases children with
  | nil =>
    rw [Forest.children, hchildren] at hd
    cases hd
  | cons c cs =>
    obtain ⟨cshape, cspan, cchildren⟩ := c
    have hfirst : f.node? (n.id + 1) = some ⟨n.id + 1, _, _, _, _, _⟩ := ht.lies.2.1.1
    grind [Forest.children, Tree.starts]

theorem toList_extract {n : Node} {i j : Nat} (hn : f.node? i = some n) (hij : i < j) :
    (f.nodes.extract i j).toList = n :: (f.nodes.extract (i + 1) j).toList := by
  obtain ⟨hi, hx⟩ := Array.getElem?_eq_some_iff.mp hn
  rw [Array.toList_extract, Array.toList_extract, extract_eq_take_drop, extract_eq_take_drop,
    drop_eq_getElem_cons (by simpa using hi), show j - i = (j - (i + 1)) + 1 by omega, take_succ_cons]
  simp [hx]

theorem Placed.statement {r : Node} (hr : f.Has r) (h : f.Placed r d) (hd : d.shape ≠ .exported) :
    ∃ n ∈ f.children r, (f.within n).find? (·.shape != .exported) = some d := by
  cases h with
  | directly h =>
    have hhas := (hr.child h).1
    refine ⟨d, h, ?_⟩
    rw [within, toList_extract hhas.at_ hhas.lt_stop]
    simp [hd]
  | @exported e he hs h =>
    have hhas := (hr.child he).1
    obtain ⟨hchild, -, -, hstop⟩ := hhas.child h
    have hid := hhas.head_child (hhas.children_exported hs h)
    have hlt := hchild.lt_stop
    refine ⟨e, he, ?_⟩
    rw [within, toList_extract hhas.at_ hhas.lt_stop, toList_extract (hid ▸ hchild.at_) (by omega)]
    simp [hs, hd]

end Forest

theorem Source.rooted_of_no_errors {ss : List Source}
    (hclean : ∀ s ∈ ss, Diagnostic.hasErrors (s.parse none).remarks = false) :
    (Forest.ofDocuments (ss.map (·.parse none))).Rooted := by
  intro r hr
  obtain ⟨q, hq, hstands, -⟩ := (Program.grown_of_no_errors hclean).sown.root hr
  obtain ⟨s, -, hs⟩ := mem_map.mp (Forest.document_of_mem_plants hq)
  rw [hstands.shape_eq, ← hs, (s.root_parse none).1, Grammar.rootShape]
  cases s.kind.isLine with
  | true => exact .inr rfl
  | false => exact .inl rfl

/-! ### What code asks for -/

namespace Lowering

variable {d n : Node} {i : Instruction} {c code : List Instruction} {ds : List Node} {r : Ref}

open Machine (Ref Asks Orderly Gives Reaches)

variable {p : Program} {base last : Memo}

/-- The classes and bindings that the code of a program can ask for. -/
inductive Refers (p : Program) : Ref → Prop where
  | instance_ {d : Node} (hd : p.Has d) (hs : d.shape = .classNode false) : Refers p (.cls (handle d))
  | classObject {d : Node} (hd : p.Has d) (hs : d.shape = .classNode false) (ho : p.hasClassObject d) :
    Refers p (.cls (Instruction.classObjectId (handle d)))
  | binding {d : Node} (hd : p.Has d) (hs : d.shape = .letBinding) (hg : p.isGlobalBinding d) :
    Refers p (.global (handle d))

theorem refers_objectId (hd : p.Has d) (hs : d.shape = .classNode false) : Refers p (.cls (objectId p d)) := by
  unfold objectId
  split
  · exact .classObject hd hs ‹_›
  · exact .instance_ hd hs

theorem asks_of_refs {R : Ref → Prop} (hi : Machine.isInner i)
    (hr : Machine.refs i = []) (hl : ∀ k body, i ≠ .loadLazy k body) : Asks R i :=
  .mk hi (by simp [hr]) fun he => absurd he (hl _ _)

theorem Fixed.asks (hp : p.Grown) (hn : p.Has n) (h : Fixed p n i) :
    Asks (Refers p) i ∧ Machine.isReturn i = false := by
  have hnumber (h : isNumber i) : Asks (Refers p) i ∧ Machine.isReturn i = false := by
    cases i with
    | constInt | constF32 | constF64 | constFBig => exact ⟨asks_of_refs rfl rfl nofun, rfl⟩
    | _ => cases h
  cases h with
  | object hs hd hclass =>
    obtain ⟨hdhas, -⟩ := hp.declaration hn hd
    exact ⟨.mk rfl (forall_mem_singleton.mpr (refers_objectId hdhas hclass)) nofun, rfl⟩
  | global hs hd hlet hg =>
    obtain ⟨hdhas, -⟩ := hp.declaration hn hd
    exact ⟨.mk rfl (forall_mem_singleton.mpr (.binding hdhas hlet hg)) nofun, rfl⟩
  | string | character | symbol => exact ⟨asks_of_refs rfl rfl nofun, rfl⟩
  | integer hs hi => exact hnumber (isNumber_integer hi)
  | float hs hi => exact hnumber (isNumber_float hi)

/-- The code of an expression asks for classes and bindings of the program, and does not return. -/
theorem Lowered.asks (hp : p.Grown) {part : Part} {f g : Frame} (h : Lowered p part f c g) (hin : part.In p) :
    ∀ i ∈ c, Asks (Refers p) i ∧ Machine.isReturn i = false := by
  have hplain {i : Instruction} (hi : Machine.isInner i) (hr : Machine.refs i = [])
      (hl : ∀ k body, i ≠ .loadLazy k body) (hret : Machine.isReturn i = false) :
      ∀ j ∈ [i], Asks (Refers p) j ∧ Machine.isReturn j = false :=
    forall_mem_singleton.mpr ⟨asks_of_refs hi hr hl, hret⟩
  have happend {c k : List Instruction} (hc : ∀ i ∈ c, Asks (Refers p) i ∧ Machine.isReturn i = false)
      (hk : ∀ i ∈ k, Asks (Refers p) i ∧ Machine.isReturn i = false) :
      ∀ i ∈ c ++ k, Asks (Refers p) i ∧ Machine.isReturn i = false := forall_mem_append.mpr ⟨hc, hk⟩
  induction h with
  | load hi => exact hplain rfl rfl nofun rfl
  | nothing => exact fun _ h => absurd h not_mem_nil
  | all h hs ih ihs =>
    cases hin with
    | all hq =>
      exact happend (ih (hq _ mem_cons_self)) (ihs (.all fun r hr => hq r (mem_cons_of_mem _ hr)))
  | self hn h ih | held hn hd hs h ih => exact ih (.load _)
  | field hn hd hs hname h ih => exact happend (ih (.load _)) (hplain rfl rfl nofun rfl)
  | fixed f hi =>
    cases hin with
    | value hn hs => exact forall_mem_singleton.mpr (hi.asks hp hn)
  | tuple hn he h ih =>
    cases hin with
    | value hhas hs => exact ih (in_value hhas he).1
  | send hn he hm hsel hargs hcode ihargs ihcode =>
    cases hin with
    | value hhas hs =>
      exact happend (happend (ihargs (in_sent (hhas.part hm))) (ihcode (in_value hhas he).1))
        (hplain rfl rfl nofun rfl)
  | cascade hn he hcode hsends ihcode ihsends =>
    cases hin with
    | value hhas hs =>
      exact happend (happend (ihcode (in_value hhas he).1) (ihsends (.messages fun m hm => mem_cascaded hhas hm)))
        (hplain rfl rfl nofun rfl)
  | let_ hn hb he hv hbefore hcode ihbefore ihcode =>
    cases hin with
    | value hhas hs =>
      exact happend (happend (ihbefore (in_value (hhas.part hb) hv).1) (ihcode (in_value hhas he).1))
        (hplain rfl rfl nofun rfl)
  | panic hn he hcode ih =>
    cases hin with
    | value hhas hs => exact happend (ih (in_value hhas he).1) (hplain rfl rfl nofun rfl)
  | strict hn h ih =>
    cases hin with
    | argument hhas hs => exact ih (.value hhas hs)
  | lazy hn hk hloads hbody ihloads ihbody =>
    cases hin with
    | argument hhas hs =>
      refine happend (ihloads (in_captures _)) (forall_mem_singleton.mpr ⟨.mk rfl nofun ?_, rfl⟩)
      rintro k body heq
      cases heq
      exact forall_mem_append.mpr ⟨fun j hj => (ihbody (.value hhas hs) j hj).1,
        forall_mem_singleton.mpr (asks_of_refs rfl rfl nofun)⟩
  | message hsel hargs hload ihargs ihload =>
    cases hin with
    | messages hms =>
      exact happend (happend (ihargs (in_sent (hms _ mem_cons_self).1)) (ihload (.load _)))
        (hplain rfl rfl nofun rfl)
  | @messages n m ms f g h first rest hfirst hrest ihfirst ihrest =>
    cases hin with
    | messages hms =>
      have hone : (Part.messages n [m]).In p :=
        .messages fun x hx => hms x (mem_singleton.mp hx ▸ mem_cons_self)
      exact happend (happend (ihfirst hone) (hplain rfl rfl nofun rfl))
        (ihrest (.messages fun x hx => hms x (mem_cons_of_mem m hx)))

theorem Answers.asks (hp : p.Grown) {sel : String} (h : Answers p sel c) : ∀ i ∈ c, Asks (Refers p) i := by
  cases h with
  | body hm hsel he hc hn =>
    exact forall_mem_append.mpr ⟨fun i hi => (hc.asks hp (in_body hm he) i hi).1,
      forall_mem_singleton.mpr (asks_of_refs rfl rfl nofun)⟩
  | native | unimplemented =>
    exact forall_mem_cons.mpr ⟨asks_of_refs rfl rfl nofun,
      forall_mem_singleton.mpr (asks_of_refs rfl rfl nofun)⟩
  | @initializer d i _ values g n hd hs hi hsel hvalues hn =>
    refine forall_mem_append.mpr ⟨forall_mem_append.mpr ⟨fun j hj =>
      (hvalues.asks hp (in_assigned hi) j hj).1, forall_mem_cons.mpr ⟨?_, ?_⟩⟩, ?_⟩
    · exact .mk rfl (forall_mem_singleton.mpr (.instance_ hd hs)) nofun
    · intro j hj
      obtain ⟨a, -, rfl⟩ := mem_map.mp hj
      exact asks_of_refs rfl rfl nofun
    · exact forall_mem_singleton.mpr (asks_of_refs rfl rfl nofun)

/-! ### The order of code -/

def Named (p : Program) (i : Instruction) : Prop := ∀ r ∈ Machine.refs i, Refers p r

section

variable {L D : Ref → Prop} {k : List Instruction}

theorem orderly_inner (hR : ∀ r, Refers p r → D r ∨ L r)
    (hc : ∀ i ∈ c, Asks (Refers p) i ∧ Machine.isReturn i = false) (hk : Orderly L D k) : Orderly L D (c ++ k) := by
  induction c with
  | nil => exact hk
  | cons i c ih =>
    obtain ⟨⟨hi, hret⟩, hrest⟩ := forall_mem_cons.mp hc
    exact .inner (hi.mono hR) hret (ih hrest)

theorem Segment.orderly (hp : p.Grown) (h : Segment p (Named p) c)
    (hR : ∀ r, Refers p r → D r ∨ L r) (hk : ∀ D', (∀ r, D r → D' r) → Orderly L D' k) : Orderly L D (c ++ k) := by
  have hrest : Orderly L D k := hk D fun _ hr => hr
  cases h with
  | @declare i hi hK =>
    cases i with
    | declareClass => exact .gives rfl (hk _ fun _ => .inl)
    | markClass | inheritMethod => exact .link rfl (fun r hr => hR r (hK r hr)) hrest
    | noop => exact .inner (asks_of_refs rfl rfl nofun) rfl hrest
    | _ => cases hi
  | field id => exact .field id _ hrest
  | method name hb =>
    rw [cons_append, append_assoc]
    exact .method _ name (fun j hj => (hb.asks hp j hj).mono hR) hrest
  | binding id hin hc =>
    rw [append_assoc]
    exact orderly_inner hR (hc.asks hp hin) (.gives rfl (hk _ fun _ => .inl))
  | statement hin hc => exact orderly_inner hR (hc.asks hp hin) hrest

theorem Stream.orderly (hp : p.Grown) (h : Stream p (Named p) c)
    (hR : ∀ r, Refers p r → D r ∨ L r) (hk : ∀ D', (∀ r, D r → D' r) → Orderly L D' k) : Orderly L D (c ++ k) := by
  induction h generalizing D with
  | nil => exact hk D fun _ hr => hr
  | cons h _ ih =>
    rw [append_assoc]
    refine h.orderly hp hR fun D' hD => ih (fun r hr => (hR r hr).imp_left (hD r)) fun D'' hD' => ?_
    exact hk D'' fun r hr => hD' r (hD r hr)

def IsOf (p : Program) (cs : List Node) (r : Ref) : Prop :=
  ∃ c ∈ cs, r = .cls (handle c) ∨ p.hasClassObject c ∧ r = .cls (Instruction.classObjectId (handle c))

theorem orderly_classHead {c : Node} {s t : State} (h : Yields (classHead p c) s code t)
    (hk : ∀ D', (∀ r, D r ∨ IsOf p [c] r → D' r) → Orderly L D' k) : Orderly L D (code ++ k) := by
  obtain ⟨name, marks, hmarks, rfl⟩ := classHead_code h
  clear h
  rw [cons_append, append_assoc]
  refine .gives (r := .cls (handle c)) rfl ?_
  have hmarked {k' : List Instruction} {D' : Ref → Prop} (hD : D' (.cls (handle c))) (hk' : Orderly L D' k') :
      Orderly L D' (marks ++ k') := by
    induction marks with
    | nil => exact hk'
    | cons i marks ih =>
      obtain ⟨⟨m, rfl⟩, hrest⟩ := forall_mem_cons.mp hmarks
      exact .link rfl (by simpa [Machine.refs] using .inl hD) (ih hrest)
  refine hmarked (.inr rfl) ?_
  split
  · rename_i ho
    refine .gives (r := .cls (Instruction.classObjectId (handle c))) rfl (hk _ ?_)
    rintro r (hr | ⟨d, hd, hr⟩)
    · exact .inl (.inl hr)
    · grind
  · rename_i ho
    refine hk _ ?_
    rintro r (hr | ⟨d, hd, hr⟩)
    · exact .inl hr
    · grind

/-- The classes come first, and are there for all that follows. -/
theorem orderly_heads {cs : List Node} {heads : List (List Instruction)}
    (h : List.Forall₂ (Traced p base last (classHead p)) cs heads)
    (hk : ∀ D', (∀ r, D r ∨ IsOf p cs r → D' r) → Orderly L D' k) : Orderly L D (heads.flatten ++ k) := by
  induction h generalizing D with
  | nil => exact hk D fun r hr => hr.elim (fun hr => hr) fun ⟨_, hd, _⟩ => absurd hd not_mem_nil
  | cons h _ ih =>
    obtain ⟨u, v, -, h, -⟩ := h
    rw [flatten_cons, append_assoc]
    refine orderly_classHead h fun D' hD => ih fun D'' hD' => hk D'' ?_
    rintro r (hr | ⟨d, hd, hr⟩)
    · exact hD' r (.inl (hD r (.inl hr)))
    · rcases mem_cons.mp hd with rfl | hd
      · exact hD' r (.inl (hD r (.inr ⟨d, mem_singleton_self d, hr⟩)))
      · exact hD' r (.inr ⟨d, hd, hr⟩)

end

/-! ### The streams of a program -/

theorem stream_traced {α : Type} {f : α → Gen (List Instruction)} {K : Instruction → Prop} {as : List α}
    {cs : List (List Instruction)} (h : List.Forall₂ (Traced p base last f) as cs)
    (hf : ∀ a ∈ as, ∀ c, Traced p base last f a c → Stream p K c) : Stream p K cs.flatten := by
  refine stream_flatten fun c hc => ?_
  obtain ⟨a, ha, h⟩ := Forest.exists_of_mem h.flip hc
  exact hf a ha c h

theorem named_of_link (hp : p.Grown) {c : Node} (hc : p.Has c) (hs : c.shape = .classNode false)
    {bs : List Behaviour} (hbs : p.Found bs) : ∀ i ∈ bs.filterMap (link p c), Named p i := by
  intro i hi
  obtain ⟨b, hb, hi⟩ := mem_filterMap.mp hi
  obtain ⟨k, m, hk, hm, hid, -⟩ := hbs.stems b hb
  obtain ⟨hmhas, -⟩ := hk.mem_methods hm
  have howner := hp.closestClass_method hk hm
  simp only [link, hid, hmhas.at_, howner, Option.bind_eq_bind, Option.bind_some] at hi
  split at hi
  · cases hi
  · rename_i hnot
    cases hi
    have hwhole : k.shape = .classNode false := by
      have hclass := (hp.closestClass hmhas howner).2
      cases hshape : k.shape with
      | classNode b => cases b <;> simp_all
      | _ => simp_all [Shape.isClass]
    intro r hr
    simp only [Machine.refs, mem_cons, not_mem_nil, or_false] at hr
    rcases hr with rfl | rfl
    · exact .instance_ hk hwhole
    · exact .instance_ hc hs

theorem named_of_own (hd : p.Has d) (hs : d.shape = .classNode false)
    (hi : ∀ r ∈ Machine.refs i, r = .cls (handle d)) : Named p i :=
  fun r hr => hi r hr ▸ .instance_ hd hs

theorem DeclaredBy.split (hp : p.Grown) (hds : ∀ d ∈ ds, p.Has d) (h : DeclaredBy p base last ds c) :
    ∃ heads rest, c = heads.flatten ++ rest ∧
      List.Forall₂ (Traced p base last (classHead p)) (classesOf ds) heads ∧ Stream p (Named p) rest := by
  obtain ⟨hheads, hmembers, hlinks, hbindings⟩ := h
  rename_i heads members links bindings
  have hclass {d : Node} (hd : d ∈ classesOf ds) : p.Has d ∧ d.shape = .classNode false :=
    (mem_classesOf.mp hd).imp_left (hds d)
  refine ⟨heads, members.flatten ++ (links.flatten ++ bindings.flatten), by simp, hheads, ?_⟩
  refine (stream_traced hmembers fun d hd c h => ?_).append
    ((stream_traced hlinks fun d hd c h => ?_).append (stream_traced hbindings fun d hd c h => ?_))
  · obtain ⟨u, v, -, h, -⟩ := h
    grind [stream_classMembers, named_of_own]
  · obtain ⟨bs, hbs, -, rfl⟩ := links_code hp (hclass hd).1 (by rw [(hclass hd).2]; rfl) h
    obtain ⟨u, v, -, h, -⟩ := h
    exact stream_inheritLinks h (named_of_link hp (hclass hd).1 (hclass hd).2 hbs.found)
  · obtain ⟨u, v, -, h, -⟩ := h
    exact stream_globalBinding (hds d (mem_filter.mp hd).1) h

theorem LineBy.stream (hp : p.Grown) (hn : p.Has n) (h : LineBy p base last n c) : Stream p (Named p) c := by
  obtain ⟨hbefore, hstatements⟩ := h
  have hds : ∀ d ∈ (p.lineDeclarations n).filter (·.shape.isClass), p.Has d := fun d hd =>
    has_lineDeclaration hn (mem_filter.mp hd).1
  obtain ⟨heads, rest, rfl, hheads, hrest⟩ := hbefore.split hp hds
  refine ((stream_traced hheads fun d hd c h => ?_).append hrest).append
    (stream_traced hstatements fun m hm c h => ?_)
  · obtain ⟨hmem, hs⟩ := mem_classesOf.mp hd
    obtain ⟨u, v, -, h, -⟩ := h
    exact stream_classHead (fun _ => named_of_own (hds d hmem) hs) h
  · obtain ⟨u, v, -, h, -⟩ := h
    exact stream_statement (hn.child hm).1 h

def moduleClasses (p : Program) : List Node := classesOf (p.modules.flatMap (moduleDeclarations p))

def IsLate (p : Program) (r : Ref) : Prop := Refers p r ∧ ¬ IsOf p (moduleClasses p) r

/-- What modules declare keeps the order, but for bindings and the classes of lines, and so does what follows. -/
theorem DeclaredBy.orderly (hp : p.Grown) {before ending : List Instruction}
    (h : DeclaredBy p base last (p.modules.flatMap (moduleDeclarations p)) before) (hcode : Stream p (Named p) code)
    (hending : ∀ D, Orderly (IsLate p) D ending) : Orderly (IsLate p) (fun _ => False) (before ++ code ++ ending) := by
  obtain ⟨heads, rest, rfl, hheads, hrest⟩ := h.split hp fun d => has_moduleDeclaration hp
  rw [append_assoc, append_assoc]
  refine orderly_heads hheads fun D hD => ?_
  rw [← append_assoc]
  refine (hrest.append hcode).orderly hp (fun r hr => ?_) fun D' _ => hending D'
  by_cases hearly : IsOf p (moduleClasses p) r
  · exact .inl (hD r (.inr hearly))
  · exact .inr ⟨hr, hearly⟩

/-- The code of a program keeps the order, but for bindings and the classes of lines. -/
theorem WholeBy.orderly (hp : p.Grown) (h : WholeBy p base last code) : Orderly (IsLate p) (fun _ => False) code := by
  obtain ⟨hbefore, hlines⟩ := h
  refine hbefore.orderly hp (stream_flatten fun c hc => ?_) fun D => .halt D []
  obtain ⟨n, hn, h⟩ := Forest.exists_of_mem hlines.flip hc
  exact h.stream hp (has_sortedLine hp n hn)

/-! ### What the code gives -/

theorem gives_flatten {α : Type} {R : α → List Instruction → Prop} {as : List α}
    {cs : List (List Instruction)} (h : List.Forall₂ R as cs) {a : α} (ha : a ∈ as) (hr : ∀ c, R a c → Gives c r) :
    Gives cs.flatten r := by
  obtain ⟨c, hc, hac⟩ := Forest.exists_of_mem h ha
  obtain ⟨i, hi, hgives⟩ := hr c hac
  exact ⟨i, mem_flatten.mpr ⟨c, hc, hi⟩, hgives⟩

theorem DeclaredBy.gives_class (h : DeclaredBy p base last ds c) (hr : IsOf p (classesOf ds) r) : Gives c r := by
  obtain ⟨hheads, -, -, -⟩ := h
  obtain ⟨d, hd, hr⟩ := hr
  simp only [Machine.gives_append]
  refine .inl (.inl (.inl (gives_flatten hheads hd fun c h => ?_)))
  obtain ⟨u, v, -, h, -⟩ := h
  obtain ⟨name, marks, -, rfl⟩ := classHead_code h
  rcases hr with rfl | ⟨ho, rfl⟩
  · exact ⟨_, mem_cons_self, rfl⟩
  · rw [if_pos ho]
    exact ⟨declareClassObject d name, by simp, rfl⟩

theorem gives_globalBinding {s t : State} (h : Yields (globalBinding p d) s c t) : Gives c (.global (handle d)) := by
  simp only [globalBinding, yields_bind, yields_pure] at h
  obtain ⟨e, _, -, _, _, -, code, _, -, _, _, -, rfl, -⟩ := h
  exact ⟨_, mem_append_right _ (mem_singleton_self _), rfl⟩

theorem DeclaredBy.gives_binding (h : DeclaredBy p base last ds c) (hd : d ∈ ds) (hs : d.shape = .letBinding) :
    Gives c (.global (handle d)) := by
  obtain ⟨-, -, -, hbindings⟩ := h
  simp only [Machine.gives_append]
  refine .inr (gives_flatten hbindings (mem_filter.mpr ⟨hd, by simp [hs]⟩) fun c h => ?_)
  obtain ⟨u, v, -, h, -⟩ := h
  exact gives_globalBinding h

theorem LineBy.gives (hn : p.Has n) (hs : n.shape = .lineRoot) (h : LineBy p base last n c) (hd : p.Placed n d) :
    (d.shape = .letBinding → Gives c (.global (handle d))) ∧
      (d.shape = .classNode false → d ∈ p.children n → ∀ r, IsOf p [d] r → Gives c r) := by
  obtain ⟨hbefore, hstatements⟩ := h
  refine ⟨fun hlet => Machine.gives_append.mpr (.inr ?_), fun hclass hmem r hr =>
    Machine.gives_append.mpr (.inl (hbefore.gives_class ?_))⟩
  · obtain ⟨m, hm, hfind⟩ := hd.statement hn (by rw [hlet]; nofun)
    refine gives_flatten hstatements hm fun c h => ?_
    obtain ⟨u, v, -, h, -⟩ := h
    unfold statement at h
    rw [hfind] at h
    obtain ⟨_, w, -, h⟩ := yields_bind.mp h
    rw [hlet] at h
    exact gives_globalBinding h
  · obtain ⟨x, hx, hr⟩ := hr
    rw [mem_singleton.mp hx] at hr
    refine ⟨d, mem_classesOf.mpr ⟨mem_filter.mpr ⟨?_, by simp [hclass, Shape.isClass]⟩, hclass⟩, hr⟩
    grind [Forest.lineDeclarations, Shape.isDeclaration]

theorem mem_module_or_line (hp : p.Grown) (hroots : p.Rooted) (hn : n ∈ p.roots) (h : p.Placed n d)
    (hd : d.shape.isClass ∨ d.shape = .letBinding) : d ∈ p.modules.flatMap (moduleDeclarations p) ∨ n ∈ p.lines := by
  rcases hroots n hn with hmodule | hline
  · obtain ⟨e, he, rfl⟩ := h.mem_moduleDeclarations (hp.sown.has_root hn) hmodule hd
    exact .inl (mem_flatMap.mpr ⟨n, mem_filter.mpr ⟨hn, by simp [hmodule]⟩, mem_map_of_mem he⟩)
  · exact .inr (mem_filter.mpr ⟨hn, by simp [hline]⟩)

def lineClasses (p : Program) : List Node := classesOf (p.lines.flatMap p.children)

def exportedClasses (p : Program) : List Node :=
  classesOf (((p.lines.flatMap p.children).filter (·.shape == .exported)).flatMap p.children)

theorem IsLate.place (hp : p.Grown) (hroots : p.Rooted) (h : IsLate p r) :
    (∃ n ∈ p.lines, ∃ d ∈ p.children n, d.shape = .classNode false ∧ IsOf p [d] r) ∨ IsOf p (exportedClasses p) r ∨
      ∃ d, p.Has d ∧ d.shape = .letBinding ∧ p.isGlobalBinding d ∧ r = .global (handle d) := by
  obtain ⟨hrefers, hlate⟩ := h
  have hclass {d : Node} (hd : p.Has d) (hs : d.shape = .classNode false) (hr : IsOf p [d] r) :
      (∃ n ∈ p.lines, ∃ d ∈ p.children n, d.shape = .classNode false ∧ IsOf p [d] r) ∨
        IsOf p (exportedClasses p) r := by
    have hisClass : d.shape.isClass := by rw [hs]; rfl
    obtain ⟨n, hn, hplaced⟩ := hp.sown.class_placed hroots hd hisClass
    rcases mem_module_or_line hp hroots hn hplaced (.inl hisClass) with hmem | hmem
    · obtain ⟨x, hx, hr⟩ := hr
      rw [mem_singleton.mp hx] at hr
      exact absurd ⟨d, mem_classesOf.mpr ⟨hmem, hs⟩, hr⟩ hlate
    · cases hplaced with
      | directly h => exact .inl ⟨n, hmem, d, h, hs, hr⟩
      | @exported e he hse h =>
        obtain ⟨x, hx, hr⟩ := hr
        rw [mem_singleton.mp hx] at hr
        have hexported : e ∈ (p.lines.flatMap p.children).filter (·.shape == .exported) :=
          mem_filter.mpr ⟨mem_flatMap.mpr ⟨n, hmem, he⟩, by simp [hse]⟩
        exact .inr ⟨d, mem_classesOf.mpr ⟨mem_flatMap.mpr ⟨e, hexported, h⟩, hs⟩, hr⟩
  cases hrefers with
  | instance_ hd hs => exact (hclass hd hs ⟨_, mem_singleton_self _, .inl rfl⟩).imp_right .inl
  | classObject hd hs ho => exact (hclass hd hs ⟨_, mem_singleton_self _, .inr ⟨ho, rfl⟩⟩).imp_right .inl
  | @binding d hd hs hg => exact .inr (.inr ⟨d, hd, hs, hg, rfl⟩)

theorem WholeBy.gives_late (hp : p.Grown) (hroots : p.Rooted) (h : WholeBy p base last code) (hr : IsLate p r) :
    IsOf p (exportedClasses p) r ∨ Gives code r := by
  obtain ⟨hbefore, hlines⟩ := h
  rename_i before lines
  have hline {n : Node} (hn : n ∈ p.lines) (hgives : ∀ c, LineBy p base last n c → Gives c r) :
      Gives (before ++ lines.flatten ++ [.halt]) r := by
    simp only [Machine.gives_append]
    exact .inl (.inr (gives_flatten hlines (mem_mergeSort.mpr hn) hgives))
  have hhas {n : Node} (hn : n ∈ p.lines) : p.Has n ∧ n.shape = .lineRoot :=
    (mem_filter.mp hn).imp hp.sown.has_root beq_iff_eq.mp
  rcases hr.place hp hroots with ⟨n, hn, d, hd, hs, hr⟩ | hexported | ⟨d, hd, hs, hg, rfl⟩
  · exact .inr (hline hn fun c hc => (hc.gives (hhas hn).1 (hhas hn).2 (.directly hd)).2 hs hd r hr)
  · exact .inl hexported
  · right
    obtain ⟨n, hn, hplaced⟩ := hp.sown.binding_placed hroots hd hg
    rcases mem_module_or_line hp hroots hn hplaced (.inr hs) with hmem | hmem
    · simp only [Machine.gives_append]
      exact .inl (.inl (hbefore.gives_binding hmem hs))
    · exact hline hmem fun c hc => (hc.gives (hhas hmem).1 (hhas hmem).2 hplaced).1 hs

/-- What has been learnt about a program when all checks have been made. -/
def checked (p : Program) : Memo := ((Check.runAll Check.all p).run (.fresh p)).2

theorem since_checked (hp : p.Grown) : p.Since (.fresh p) (checked p) :=
  (Program.asks_runAll hp (.fresh p) _ p.since_fresh).2

theorem wholeBy_of_code {ss : List Source} (hclean : ∀ s ∈ ss, Diagnostic.hasErrors (s.parse none).remarks = false)
    (hp : p = .ofDocuments (ss.map (·.parse none))) (hcode : (run (whole p) (checked p)).code = .ok code) :
    p.Grown ∧ p.Rooted ∧ WholeBy p (checked p) (run (whole p) (checked p)).memo code := by
  have hgrown : p.Grown := hp ▸ Program.grown_of_no_errors hclean
  have hchecked : p.Since (checked p) (checked p) := (since_checked hgrown).now
  have hyields : Yields (whole p) ⟨checked p, [], []⟩ code (((whole p).run.run ⟨checked p, [], []⟩).2) :=
    Prod.ext hcode rfl
  exact ⟨hgrown, hp ▸ Source.rooted_of_no_errors hclean, wholeBy_of_yields hgrown hchecked hyields⟩

/-- What a program may miss while `ahead` of it is still to come: a binding or a class of a line that is ahead,
or a class that a line exports. -/
inductive Missable (p : Program) (ahead : List Instruction) (r : Ref) : Prop where
  | binding (hr : ∃ d, p.Has d ∧ p.isGlobalBinding d ∧ r = .global (handle d)) (h : Gives ahead r)
  | line (hr : IsOf p (lineClasses p) r) (h : Gives ahead r)
  | exported (hr : IsOf p (exportedClasses p) r)

/-- Where a program fails for want of a class or a binding, that is no class of a module: it is a binding or a
class of a line that the code of the program still to come there gives, or a class that a line exports. -/
theorem missed_is_ahead {ss : List Source} {code : List Instruction}
    (hclean : ∀ s ∈ ss, Diagnostic.hasErrors (s.parse none).remarks = false)
    (hp : p = .ofDocuments (ss.map (·.parse none)))
    (hcode : (run (whole p) (checked p)).code = .ok code) {depth : Nat} {e : Machine.Fault} {w : Machine.State}
    (he : Machine.eval code (.fresh depth) = .error e w) {r : Ref} (hr : e.missing? = some r) :
    ¬ IsOf p (moduleClasses p) r ∧ ∃ xs ahead s t,
      Reaches [.run code .none] (.fresh depth) (xs ++ [.run ahead .none]) s ∧
      Machine.step (xs ++ [.run ahead .none]) s = .error e t ∧ Missable p ahead r := by
  obtain ⟨hgrown, hroots, hwhole⟩ := wholeBy_of_code hclean hp hcode
  rcases Machine.eval_error rfl he with rfl | ⟨us, u, v, hreach, hstep⟩
  · cases hr
  · obtain ⟨hlate, xs, k, rfl, hahead⟩ := Machine.missing_ahead (hwhole.orderly hgrown) hreach hstep hr
    refine ⟨hlate.2, xs, k, u, v, hreach, hstep, ?_⟩
    rcases hwhole.gives_late hgrown hroots hlate with hexported | hgives
    · exact .exported hexported
    · rcases hlate.place hgrown hroots with ⟨n, hn, d, hd, hs, x, hx, hr⟩ | hexported | ⟨d, hd, -, hg, hr⟩
      · rw [mem_singleton.mp hx] at hr
        exact .line ⟨d, mem_classesOf.mpr ⟨mem_flatMap.mpr ⟨n, hn, hd⟩, hs⟩, hr⟩ (hahead hgives)
      · exact .exported hexported
      · exact .binding ⟨d, hd, hg, hr⟩ (hahead hgives)

def hasty : List Source := [.ofString .module "test:hasty.loa" "let a = b. let b = 1."]

def exporting : List Source := [.ofString .repl "repl:1" "export class A \x7b \x7d A."]

/-- What the code of a program misses when it is run. -/
def missed? (p : Program) : Option Ref :=
  match (run (whole p) (checked p)).code with
  | .ok code =>
    match Machine.eval code (.fresh 100) with
    | .error e _ => e.missing?
    | .ok .. => none
  | .error _ => none

theorem missed_eq_some (h : missed? p = some r) : ∃ code e w,
    (run (whole p) (checked p)).code = .ok code ∧ Machine.eval code (.fresh 100) = .error e w ∧
      e.missing? = some r := by grind [missed?]

/-- Nothing is wrong with a program, and it misses something all the same. -/
structure Misses (ss : List Source) (p : Program) (r : Ref) : Prop where
  program : p = .ofDocuments (ss.map (·.parse none))
  parsed : ∀ s ∈ ss, Diagnostic.hasErrors (s.parse none).remarks = false
  checked : Diagnostic.hasErrors ((Check.runAll Check.all p).run (.fresh p)).1 = false
  missed : missed? p = some r

/-- A binding is used before it has its value, and a class that a line exports is used at all. -/
theorem clean_yet_missing : (∃ p, Misses hasty p (.global 6)) ∧ ∃ p, Misses exporting p (.cls 3) :=
  ⟨⟨_, rfl, by decide +kernel, by decide +kernel, by decide +kernel⟩,
    ⟨_, rfl, by decide +kernel, by decide +kernel, by decide +kernel⟩⟩

theorem missed_is_ahead_hasty : ∃ p code, (run (whole p) (checked p)).code = .ok code ∧
    ¬ IsOf p (moduleClasses p) (.global 6) ∧ ∃ xs ahead s e t,
      Reaches [.run code .none] (.fresh 100) (xs ++ [.run ahead .none]) s ∧
      Machine.step (xs ++ [.run ahead .none]) s = .error e t ∧ Missable p ahead (.global 6) := by
  have hclean : ∀ s ∈ hasty, Diagnostic.hasErrors (s.parse none).remarks = false := by decide +kernel
  have h : missed? (.ofDocuments (hasty.map (·.parse none))) = some (.global 6) := by decide +kernel
  obtain ⟨code, e, w, hcode, he, hr⟩ := missed_eq_some h
  obtain ⟨hmodule, xs, ahead, s, t, hreach, hstep, hmissable⟩ := missed_is_ahead hclean rfl hcode he hr
  exact ⟨_, code, hcode, hmodule, xs, ahead, s, e, t, hreach, hstep, hmissable⟩

end Lowering

end Parlance
