import Parlance.Proofs.Inquiries
import Parlance.Proofs.ProgramCode
/-!
Whatever lowering asks, and whether it succeeds or not, what is remembered stays in order.
-/
namespace Parlance.Lowering

open List

variable {α β : Type} {p : Program} {c n : Node} {ds : List Node} {k f : α → Gen β} {as : List α}

/-- Lowering after which what is remembered is as much in order as before. -/
def Recalls (p : Program) (g : Gen α) : Prop :=
  ∀ ⦃base : Memo⦄ ⦃s : State⦄, p.Since base s.memo → p.Since base ((ExceptT.run g).run s).2.memo

namespace Recalls

theorem memo {g : Gen α} {base : Memo} {s t : State} {a : α} (hg : Recalls p g) (h : Yields g s a t)
    (hs : p.Since base s.memo) : p.Since base t.memo := by
  have hkept := hg hs
  rw [h] at hkept
  exact hkept

theorem pure (a : α) : Recalls p (Pure.pure a) := fun _ _ hs => hs

theorem fail (n : Node) (c : Cause) : Recalls p (Lowering.fail n c : Gen α) := fun _ _ hs => hs

theorem bind {g : Gen α} (hg : Recalls p g) (hk : ∀ a, Recalls p (k a)) : Recalls p (g >>= k) := by
  intro base s hs
  have hu := hg hs
  unfold ExceptT.run StateT.run at hu ⊢
  simp only [Bind.bind, ExceptT.bind, ExceptT.mk, StateT.bind]
  cases hr : g s with
  | mk r u =>
    rw [hr] at hu
    cases r with
    | error e => exact hu
    | ok a => exact hk a hu

theorem need {c : Cause} {o : Option α} (hk : ∀ a, o = some a → Recalls p (k a)) :
    Recalls p (Lowering.need n c o >>= k) := by
  cases o with
  | none => exact fun _ _ hs => hs
  | some a => exact hk a rfl

theorem get {k : State → Gen β} (hk : ∀ s, Recalls p (k s)) : Recalls p (MonadState.get >>= k) :=
  bind (fun _ _ hs => hs) hk

theorem reframe (change : Frame → Frame) : Recalls p (Lowering.reframe change) := fun _ _ hs => hs

theorem setFrame (f : Frame) : Recalls p (Lowering.setFrame f) := fun _ _ hs => hs

theorem push (n : Node) : Recalls p (Lowering.push n) := reframe _

theorem drop (count : Nat) : Recalls p (Lowering.drop count) := reframe _

theorem nameTop (n : Node) : Recalls p (Lowering.nameTop n) := bind (drop 1) fun _ => push n

theorem index (n : Node) (c : Cause) (slot : Slot) : Recalls p (Lowering.index n c slot) := by
  unfold Lowering.index
  refine get fun s => ?_
  cases s.frame.index? slot with
  | none => exact fail n c
  | some i => exact pure i

theorem call (selector : String) (n : Node) : Recalls p (Lowering.call selector n) := by
  unfold Lowering.call
  simp only
  split
  · exact fun _ _ hs => hs
  · split
    · exact fun _ _ hs => hs
    · exact pure _

theorem typing {Q : α → Prop} {x : Typing α} (hx : ∀ base, Keeps (p.Since base) x Q)
    (hk : ∀ a, Q a → Recalls p (k a)) : Recalls p (Lowering.typing x >>= k) := by
  intro base s hs
  obtain ⟨ha, hm⟩ := hx base s.memo hs
  exact hk _ ha (s := ⟨_, s.frame, s.shown⟩) hm

theorem mapM (h : ∀ a ∈ as, Recalls p (f a)) : Recalls p (as.mapM f) := by
  induction as with
  | nil => exact pure []
  | cons a as ih => grind [bind, pure]

theorem mapIdxM {f : Nat → α → Gen β} (h : ∀ i, ∀ a ∈ as, Recalls p (f i a)) : Recalls p (as.mapIdxM f) := by
  have hgo (acc : Array β) : Recalls p (mapIdxM.go f as acc) := by
    induction as generalizing acc with
    | nil => exact pure _
    | cons a as ih =>
      exact bind (h _ a mem_cons_self) fun _ => ih (fun i b hb => h i b (mem_cons_of_mem a hb)) _
  exact hgo #[]

theorem dropDeclaration (at_ n : Node) : Recalls p (Lowering.dropDeclaration at_ n) :=
  bind (index _ _ _) fun _ => bind (reframe _) fun _ => pure _

end Recalls

/-! ### Expressions -/

theorem recalls_literalClass (hp : p.Grown) (hn : p.Has n) (hs : n.shape.isExpression) :
    Recalls p (literalClass? p n) := by
  refine .typing (fun _ => Program.keeps_expressionType hp hn hs) fun t _ => ?_
  split
  · extract_lets qualified
    split
    · exact .pure _
    · split
      · exact .pure _
      · exact .fail _ _
  · exact .pure _

theorem recalls_integer (hp : p.Grown) (hn : p.Has n) (hs : n.shape.isExpression) (v : Int) :
    Recalls p (integer p n v) := by
  refine (recalls_literalClass hp hn hs).bind fun o => ?_
  extract_lets c
  split
  · exact .pure _
  · split
    · exact fun _ _ hs => hs
    · exact .pure _

theorem recalls_float (hp : p.Grown) (hn : p.Has n) (hs : n.shape.isExpression) (v : Rat) :
    Recalls p (float p n v) := by
  refine (recalls_literalClass hp hn hs).bind fun o => ?_
  split
  · exact .pure _
  · split
    · exact .pure _
    · split
      · exact fun _ _ hs => hs
      · exact .pure _

theorem recalls_reference (p : Program) (n : Node) : Recalls p (reference p n) := by
  refine .need fun d _ => ?_
  extract_lets after
  have hafter (code : List Instruction) : Recalls p (after code) := .bind (.push n) fun _ => .pure _
  split
  · split
    · exact fun _ _ hs => hs
    · exact hafter _
  · exact .bind (.index _ _ _) fun _ => hafter _
  · refine .get fun s => ?_
    split
    · exact hafter _
    · split
      · exact hafter _
      · exact fun _ _ hs => hs
  · exact .need fun name _ => .bind (.index _ _ _) fun i => .bind (.call _ _) fun _ => hafter _
  · exact fun _ _ hs => hs

/-- What lowering with so much fuel leaves in order. -/
structure Mindful (p : Program) (fuel : Nat) : Prop where
  value : ∀ {n : Node}, (Part.value n).In p → Recalls p (expressionIn p fuel n)
  lazy : ∀ {n : Node}, (Part.value n).In p → Recalls p (lazyIn p fuel n)
  send : ∀ {site m : Node} {receiver : Gen (List Instruction)}, p.Has m → Recalls p receiver →
    Recalls p (sendIn p fuel site m receiver)
  cascade : ∀ {n : Node}, p.Has n → Recalls p (cascadeIn p fuel n)
  let_ : ∀ {n : Node}, p.Has n → Recalls p (letIn p fuel n)

variable {fuel : Nat}

theorem Mindful.step_value (ih : Mindful p fuel) (hp : p.Grown) (hin : (Part.value n).In p) :
    Recalls p (expressionIn p (fuel + 1) n) := by
  obtain ⟨hn, hs⟩ : p.Has n ∧ n.shape.isExpression := by cases hin; exact ⟨‹_›, ‹_›⟩
  have hconstant (i : Instruction) : Recalls p (do push n; return [i]) := .bind (.push n) fun _ => .pure _
  rw [expressionIn]
  split
  · exact .bind (.index _ _ _) fun _ => hconstant _
  · exact recalls_reference p n
  · exact .need fun e he => ih.value (in_value hn he).1
  · exact .need fun e he => .need fun m hm => ih.send (hn.part hm) (ih.value (in_value hn he).1)
  · exact ih.cascade hn
  · exact ih.let_ hn
  · exact .need fun e he => .bind (ih.value (in_value hn he).1) fun _ => .bind (.nameTop n) fun _ => .pure _
  · exact hconstant _
  · exact hconstant _
  · exact hconstant _
  · exact .bind (recalls_integer hp hn hs _) hconstant
  · exact .bind (recalls_float hp hn hs _) hconstant
  · exact .fail _ _

theorem Mindful.step_send (ih : Mindful p fuel) {site m : Node} {receiver : Gen (List Instruction)}
    (hm : p.Has m) (hr : Recalls p receiver) : Recalls p (sendIn p (fuel + 1) site m receiver) := by
  rw [sendIn]
  refine .need fun sel _ => .bind (.mapM fun a ha => ?_) fun before => .bind hr fun code =>
    .bind (.call _ _) fun i => .bind (.drop _) fun _ => .bind (.push _) fun _ => .pure _
  obtain ⟨hhas, hs⟩ := in_argument hm ha
  have hin : (Part.value a).In p := .value hhas hs
  split
  · exact ih.lazy hin
  · exact ih.value hin

theorem Mindful.step_cascade (ih : Mindful p fuel) (hn : p.Has n) : Recalls p (cascadeIn p (fuel + 1) n) := by
  rw [cascadeIn]
  refine .need fun e he => .bind (ih.value (in_value hn he).1) fun code => .bind (.nameTop n) fun _ => ?_
  extract_lets messages
  split
  · exact .pure _
  · refine .bind (.mapIdxM fun i m hm => ?_) fun sends => .bind (.dropDeclaration n n) fun last =>
      .bind (.nameTop n) fun _ => .pure _
    refine .bind (ih.send (mem_cascaded hn hm).1 ?_) fun code => ?_
    · exact .bind (.index _ _ _) fun i => .bind (.push e) fun _ => .pure _
    · split
      · exact .bind (.drop 1) fun _ => .pure _
      · exact .pure _

theorem Mindful.step_let (ih : Mindful p fuel) (hn : p.Has n) : Recalls p (letIn p (fuel + 1) n) := by
  rw [letIn]
  refine .need fun b hb => .need fun e he => .need fun v hv => ?_
  refine .bind (ih.value (in_value (hn.part hb) hv).1) fun before => .bind (.nameTop b) fun _ => ?_
  exact .bind (ih.value (in_value hn he).1) fun code => .bind (.dropDeclaration n b) fun last =>
    .bind (.nameTop n) fun _ => .pure _

theorem Mindful.step_lazy (ih : Mindful p fuel) (hin : (Part.value n).In p) : Recalls p (lazyIn p (fuel + 1) n) := by
  rw [lazyIn]
  refine .bind (.mapM fun d _ => .bind (.index _ _ _) fun i => .bind (.push d) fun _ => .pure _) fun captures => ?_
  extract_lets withSelf inner after
  have hafter (own : List Instruction) : Recalls p (after own) := by
    simp only [after]
    split
    · exact fun _ _ hs => hs
    · exact .get fun s => .bind (.setFrame _) fun _ => .bind (ih.value hin) fun body =>
        .bind (.setFrame _) fun _ => .pure _
  split
  · exact .bind (.index _ _ _) fun i => .bind (.push n) fun _ => hafter _
  · exact hafter _

theorem mindful (hp : p.Grown) (fuel : Nat) : Mindful p fuel := by
  induction fuel with
  | zero => constructor <;> intros <;> exact fun _ _ hs => hs
  | succ fuel ih => exact ⟨ih.step_value hp, ih.step_lazy, ih.step_send, ih.step_cascade, ih.step_let⟩

theorem recalls_expression (hp : p.Grown) (hin : (Part.value n).In p) : Recalls p (expression p n) :=
  (mindful hp _).value hin

/-! ### Declarations -/

theorem recalls_classHead (p : Program) (c : Node) : Recalls p (classHead p c) := .need fun _ _ => .pure _

theorem recalls_arity (p : Program) (m : Node) : Recalls p (arity p m) := by
  refine .need fun n _ => ?_
  split
  · exact .pure _
  · exact .fail _ _

theorem recalls_method (hp : p.Grown) {m : Node} (hm : p.Has m) : Recalls p (method p m) := by
  rw [method]
  refine .need fun sel _ => ?_
  extract_lets name after
  have hafter (code : List Instruction) : Recalls p (after code) := .pure _
  split
  · split
    · exact hafter _
    · exact hafter _
  · split
    · exact hafter _
    · rename_i e he
      exact .bind (recalls_arity p m) fun n => .bind (.setFrame _) fun _ =>
        .bind (recalls_expression hp (in_body hm he)) fun code => hafter _

theorem recalls_initializer (hp : p.Grown) (c : Node) {i : Node} (hi : p.Has i) : Recalls p (initializer p c i) := by
  rw [initializer]
  refine .need fun sel _ => .bind (recalls_arity p i) fun n => .bind (.setFrame _) fun _ => ?_
  refine .bind (.mapM fun a ha => ?_) fun values => .bind (.push c) fun _ => .bind (.mapM fun a _ => ?_) fun setters =>
    .pure _
  · obtain ⟨hhas, hs, -⟩ := hi.assignment (mem_reverse.mp ha)
    exact recalls_expression hp (.value hhas hs)
  · exact .bind (.call _ _) fun _ => .bind (.reframe _) fun _ => .pure _

theorem recalls_classMembers (hp : p.Grown) (hc : p.Has c) : Recalls p (classMembers p c) := by
  rw [classMembers]
  refine .bind (.mapM fun v _ => .need fun _ _ => .pure _) fun held => ?_
  refine .bind (.mapM fun m hm => recalls_method hp (hc.mem_methods hm).1) fun methods => ?_
  split
  · exact .pure _
  · refine .bind (.mapM fun i hi => recalls_initializer hp c ?_) fun _ => .pure _
    exact hc.mem_members (mem_filter.mp hi).1

theorem recalls_inheritLinks (hp : p.Grown) (hc : p.Has c) (hs : c.shape.isTypeExpression = false) :
    Recalls p (inheritLinks p c) := by
  rw [inheritLinks]
  refine .typing (fun _ => Program.keeps_declarationType hp hc hs) fun t ht => ?_
  split
  · exact .typing (fun _ => Program.keeps_behaviours hp ht.1) fun bs _ => .pure _
  · exact .pure _

theorem recalls_globalBinding (hp : p.Grown) (hn : p.Has n) : Recalls p (globalBinding p n) :=
  .need fun _ he => .bind (.setFrame _) fun _ => .bind (recalls_expression hp (in_value hn he).1) fun _ =>
    .bind (.drop 1) fun _ => .pure _

theorem recalls_declarations (hp : p.Grown) (hds : ∀ d ∈ ds, p.Has d) : Recalls p (declarations p ds) := by
  refine .bind (.mapM fun d _ => recalls_classHead p d) fun heads => ?_
  refine .bind (.mapM fun d hd => recalls_classMembers hp (hds d (mem_filter.mp hd).1)) fun members => ?_
  refine .bind (.mapM fun d hd => ?_) fun links => ?_
  · grind [recalls_inheritLinks]
  · exact .bind (.mapM fun d hd => recalls_globalBinding hp (hds d (mem_filter.mp hd).1)) fun _ => .pure _

/-! ### Lines -/

theorem recalls_directive (hp : p.Grown) (word : String) {e : Node} (hin : (Part.value e).In p) :
    Recalls p (directive p word e) := by
  obtain ⟨he, hs⟩ : p.Has e ∧ e.shape.isExpression := by cases hin; exact ⟨‹_›, ‹_›⟩
  refine .typing (fun _ => Program.keeps_expressionType hp he hs) fun t ht => ?_
  split
  · exact fun _ _ hs => hs
  · split
    · exact .typing (fun _ => Program.keeps_behaviours hp ht) fun bs _ _ _ hs => hs
    · exact .pure _

theorem recalls_plainStatement (hp : p.Grown) (hn : p.Has n) : Recalls p (plainStatement p n) := by
  refine .bind (.setFrame _) fun _ => ?_
  split
  · exact recalls_globalBinding hp hn
  · exact .need fun e he => recalls_expression hp (in_value hn he).1
  · split
    · rename_i e he
      exact .bind (recalls_directive hp _ (in_value hn he).1) fun _ => .pure _
    · exact .pure _
  · split
    · exact recalls_expression hp (.value hn ‹_›)
    · exact .pure _

theorem recalls_statement (hp : p.Grown) (hn : p.Has n) : Recalls p (statement p n) := by
  unfold statement
  split
  · rename_i d hd
    exact recalls_plainStatement hp (hn.mem_within.mp (mem_of_find?_eq_some hd)).1
  · exact .pure _

theorem recalls_line (hp : p.Grown) (hn : p.Has n) : Recalls p (line p n) :=
  .bind (recalls_declarations hp fun _ hd => has_lineDeclaration hn (mem_filter.mp hd).1) fun _ =>
    .bind (.mapM fun _ hm => recalls_statement hp (hn.child hm).1) fun _ => .pure _

theorem has_sortedLine (hp : p.Grown) : ∀ n ∈ p.lines.mergeSort fun a b => a.id ≤ b.id, p.Has n := fun _ hn =>
  hp.sown.has_root (mem_filter.mp (mem_mergeSort.mp hn)).1

theorem recalls_whole (hp : p.Grown) : Recalls p (whole p) :=
  .bind (recalls_declarations hp fun _ => has_moduleDeclaration hp) fun _ =>
    .bind (.mapM fun n hn => recalls_line hp (has_sortedLine hp n hn)) fun _ => .pure _

/-! ### The parts of the code, and when they were made -/

/-- Code made for a thing when what is remembered was in order; what was remembered then still is at last. -/
def Traced (p : Program) (base last : Memo) (f : α → Gen β) (a : α) (b : β) : Prop :=
  ∃ u v, p.Since base u.memo ∧ Yields (f a) u b v ∧ p.Since v.memo last

variable {base last : Memo} {s t : State}

theorem Traced.later {a : α} {b : β} {m : Memo} (h : Traced p base m f a b)
    (hm : p.Since m last) : Traced p base last f a b := by
  obtain ⟨u, v, hu, hy, hv⟩ := h
  exact ⟨u, v, hu, hy, hv.trans hm⟩

theorem traced_mapM {bs : List β} (hf : ∀ a ∈ as, Recalls p (f a))
    (hs : p.Since base s.memo) (h : Yields (as.mapM f) s bs t) :
    List.Forall₂ (Traced p base t.memo f) as bs ∧ p.Since base t.memo := by
  induction as generalizing s bs with
  | nil => simp_all
  | cons a as ih =>
    obtain ⟨b, u, cs, ha, hrest, rfl⟩ := yields_mapM_cons.mp h
    have hu := (hf a mem_cons_self).memo ha hs
    have hrecalls : ∀ x ∈ as, Recalls p (f x) := fun x hx => hf x (mem_cons_of_mem a hx)
    obtain ⟨hall, ht⟩ := ih hrecalls hu hrest
    exact ⟨.cons ⟨s, u, hs, ha, (Recalls.mapM hrecalls).memo hrest hu.now⟩ hall, ht⟩

def classesOf (ds : List Node) : List Node := ds.filter (·.shape == .classNode false)

theorem mem_classesOf : c ∈ classesOf ds ↔ c ∈ ds ∧ c.shape = .classNode false := by
  simp [classesOf]

/-- The code of declarations: all classes, then their members, then what they inherit, then the bindings. -/
inductive DeclaredBy (p : Program) (base last : Memo) (ds : List Node) : List Instruction → Prop where
  | mk {heads members links bindings} (hheads : List.Forall₂ (Traced p base last (classHead p)) (classesOf ds) heads)
    (hmembers : List.Forall₂ (Traced p base last (classMembers p)) (classesOf ds) members)
    (hlinks : List.Forall₂ (Traced p base last (inheritLinks p)) (classesOf ds) links)
    (hbindings : List.Forall₂ (Traced p base last (globalBinding p)) (ds.filter (·.shape == .letBinding)) bindings) :
    DeclaredBy p base last ds (heads.flatten ++ members.flatten ++ links.flatten ++ bindings.flatten)

inductive LineBy (p : Program) (base last : Memo) (n : Node) : List Instruction → Prop where
  | mk {before statements} (hbefore : DeclaredBy p base last ((p.lineDeclarations n).filter (·.shape.isClass)) before)
    (hstatements : List.Forall₂ (Traced p base last (statement p)) (p.children n) statements) :
    LineBy p base last n (before ++ statements.flatten)

/-- The code of a program: what its modules declare, then its lines. -/
inductive WholeBy (p : Program) (base last : Memo) : List Instruction → Prop where
  | mk {before lines} (hbefore : DeclaredBy p base last (p.modules.flatMap (moduleDeclarations p)) before)
    (hlines : List.Forall₂ (LineBy p base last) (p.lines.mergeSort fun a b => a.id ≤ b.id) lines) :
    WholeBy p base last (before ++ lines.flatten ++ [.halt])

theorem declaredBy_of_yields (hp : p.Grown) {c : List Instruction} (hds : ∀ d ∈ ds, p.Has d)
    (hs : p.Since base s.memo) (h : Yields (declarations p ds) s c t) (ht : p.Since t.memo last) :
    DeclaredBy p base last ds c := by
  simp only [declarations, yields_bind, yields_pure] at h
  obtain ⟨heads, u, hheads, members, v, hmembers, links, w, hlinks, bindings, x, hbindings, rfl, rfl⟩ := h
  have hclass {d : Node} (hd : d ∈ classesOf ds) : p.Has d := hds d (mem_classesOf.mp hd).1
  have hlink : ∀ d ∈ classesOf ds, Recalls p (inheritLinks p d) := fun d hd =>
    recalls_inheritLinks hp (hclass hd) (by rw [(mem_classesOf.mp hd).2]; rfl)
  have hbinding : ∀ d ∈ ds.filter (·.shape == .letBinding), Recalls p (globalBinding p d) := fun d hd =>
    recalls_globalBinding hp (hds d (mem_filter.mp hd).1)
  obtain ⟨hheads', hu⟩ := traced_mapM (fun d _ => recalls_classHead p d) hs hheads
  obtain ⟨hmembers', hv⟩ := traced_mapM (fun d hd => recalls_classMembers hp (hclass hd)) hu hmembers
  obtain ⟨hlinks', hw⟩ := traced_mapM hlink hv hlinks
  obtain ⟨hbindings', hx⟩ := traced_mapM hbinding hw hbindings
  have hlast_w : p.Since w.memo last := ((Recalls.mapM hbinding).memo hbindings hw.now).trans ht
  have hlast_v : p.Since v.memo last := ((Recalls.mapM hlink).memo hlinks hv.now).trans hlast_w
  have hlast_u : p.Since u.memo last :=
    ((Recalls.mapM fun d hd => recalls_classMembers hp (hclass hd)).memo hmembers hu.now).trans hlast_v
  exact .mk (hheads'.imp fun _ _ h => h.later hlast_u) (hmembers'.imp fun _ _ h => h.later hlast_v)
    (hlinks'.imp fun _ _ h => h.later hlast_w) (hbindings'.imp fun _ _ h => h.later ht)

theorem lineBy_of_traced (hp : p.Grown) {c : List Instruction} (hn : p.Has n)
    (h : Traced p base last (line p) n c) : LineBy p base last n c := by
  obtain ⟨s, t, hs, h, ht⟩ := h
  simp only [line, yields_bind, yields_pure] at h
  obtain ⟨before, u, hbefore, code, v, hcode, rfl, rfl⟩ := h
  have hds : ∀ d ∈ (p.lineDeclarations n).filter (·.shape.isClass), p.Has d := fun d hd =>
    has_lineDeclaration hn (mem_filter.mp hd).1
  have hstatement : ∀ m ∈ p.children n, Recalls p (statement p m) := fun m hm =>
    recalls_statement hp (hn.child hm).1
  have hu := (recalls_declarations hp hds).memo hbefore hs
  refine .mk (declaredBy_of_yields hp hds hs hbefore (((Recalls.mapM hstatement).memo hcode hu.now).trans ht)) ?_
  exact (traced_mapM hstatement hu hcode).1.imp fun _ _ h => h.later ht

theorem wholeBy_of_yields (hp : p.Grown) {c : List Instruction} (hs : p.Since base s.memo)
    (h : Yields (whole p) s c t) : WholeBy p base t.memo c := by
  simp only [whole, yields_bind, yields_pure] at h
  obtain ⟨before, u, hbefore, lines, v, hlines, rfl, rfl⟩ := h
  have hline : ∀ n ∈ p.lines.mergeSort fun a b => a.id ≤ b.id, Recalls p (line p n) := fun n hn =>
    recalls_line hp (has_sortedLine hp n hn)
  have hds : ∀ d ∈ p.modules.flatMap (moduleDeclarations p), p.Has d := fun d => has_moduleDeclaration hp
  have hu := (recalls_declarations hp hds).memo hbefore hs
  refine .mk (declaredBy_of_yields hp hds hs hbefore ((Recalls.mapM hline).memo hlines hu.now)) ?_
  obtain ⟨hall, -⟩ := traced_mapM hline hu hlines
  exact ((forall₂_and_left ..).mpr ⟨has_sortedLine hp, hall⟩).imp fun _ _ h => lineBy_of_traced hp h.1 h.2

def link (p : Program) (c : Node) (b : Behaviour) : Option Instruction := do
  let owner ← p.closestClass? (← p.node? b.method)
  if owner.id == c.id || owner.shape == .classNode true then none
  else some (.inheritMethod (handle owner) (handle c) (hashOf b.selector))

theorem filterMap_link_applied (c : Node) (name : String) (args : List Ty) (bs : List Behaviour) :
    (p.applied c name args bs).filterMap (link p c) = bs.filterMap (link p c) := by
  rw [Program.applied, filterMap_map]
  exact filterMap_congr fun b _ => by simp [link]

theorem links_code (hp : p.Grown) {code : List Instruction} (hc : p.Has c)
    (hs : c.shape.isClass) (h : Traced p base last (inheritLinks p) c code) :
    ∃ bs, p.IsAnswer c bs ∧ last.behaviours[c.id]? = some (some bs) ∧ code = bs.filterMap (link p c) := by
  obtain ⟨u, v, hu, h, hv⟩ := h
  obtain ⟨ty, w, hasked, h⟩ := yields_bind.mp h
  obtain ⟨hty, rfl⟩ := yields_typing.mp hasked
  obtain ⟨⟨name, args, hclass⟩, hw⟩ := Program.keeps_classType hp hc hs u.memo hu
  rw [← hty, hclass] at h
  obtain ⟨bs, m, hrun, hanswer, hm, hremembered⟩ := Program.run_behaviours hp hc hs hw name args
  obtain ⟨as, x, hasked, h⟩ := yields_bind.mp h
  obtain ⟨has, rfl⟩ := yields_typing.mp hasked
  obtain ⟨rfl, rfl⟩ := yields_pure.mp h
  rw [hrun] at has hv
  rw [← has]
  exact ⟨bs, hanswer, hv.extends_.behaviours _ _ hremembered, filterMap_link_applied c name args bs⟩

end Parlance.Lowering
