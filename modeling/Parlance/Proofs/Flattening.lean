import Parlance.Proofs.Inquiries
/-!
What a class answers to: its own methods first, then those of the classes above it, and no selector twice.
Nothing is missing where it is written down what the methods give back.
-/
namespace Parlance.Program

open List

variable {p : Program} {c n : Node} {seen : List Nat}

/-! ### The classes above a class -/

def unseen (p : Program) (seen : List Nat) : Nat :=
  (List.range p.nodes.size).countP fun i => !seen.contains i

theorem unseen_cons {i : Nat} (hi : i < p.nodes.size) (hnot : i ∉ seen) : p.unseen (i :: seen) + 1 ≤ p.unseen seen := by
  have hsplit : p.unseen seen = p.unseen (i :: seen) + (List.range p.nodes.size).countP (· == i) := by
    unfold unseen
    generalize List.range p.nodes.size = l
    induction l with
    | nil => rfl
    | cons j l ih => grind
  simp_all

theorem unseen_mono {more : List Nat} (h : ∀ i ∈ seen, i ∈ more) : p.unseen more ≤ p.unseen seen :=
  countP_mono_left fun i _ hi => by grind

/-- The classes found above a class when some have been seen before. -/
structure Climbed (p : Program) (n : Node) (seen : List Nat) (r : List Nat × List Node) : Prop where
  seen : ∀ i, i ∈ r.1 ↔ i ∈ seen ∨ ∃ k ∈ r.2, k.id = i
  above : ∀ k ∈ r.2, p.Has k ∧ Relation.TransGen p.Is n k
  closed : ∀ k ∈ r.2, ∀ s, p.Is k s → s.id ∈ r.1

theorem climbed_nil (n : Node) (seen : List Nat) : Climbed p n seen (seen, []) :=
  ⟨fun i => by simp, fun _ h => absurd h not_mem_nil, fun _ h => absurd h not_mem_nil⟩

theorem climbed_superClassesFrom (hp : p.Grown) (depth : Nat) (hn : p.Has n) (hd : p.unseen seen ≤ depth) :
    Climbed p n seen (p.superClassesFrom depth seen n) ∧
      ∀ s, p.Is n s → s.id ∈ (p.superClassesFrom depth seen n).1 := by
  induction depth generalizing seen n with
  | zero =>
    rw [superClassesFrom]
    refine ⟨climbed_nil n seen, fun s hs => ?_⟩
    have hsize := (hp.has_of_is hn hs).lt_size
    by_contra hnot
    have hmore : p.unseen (s.id :: seen) + 1 ≤ p.unseen seen := unseen_cons hsize hnot
    omega
  | succ depth ih =>
    -- One super class after another; what has been seen stays seen.
    have hfold (cs : List Node) (hcs : ∀ c ∈ cs, p.Is n c) (r : List Nat × List Node)
        (hr : Climbed p n seen r) :
        let r' := cs.foldl (fun r c =>
          if r.1.contains c.id then r
          else
            let up := p.superClassesFrom depth (c.id :: r.1) c
            (up.1, r.2 ++ up.2 ++ [c])) r
        Climbed p n seen r' ∧ (∀ i ∈ r.1, i ∈ r'.1) ∧ ∀ c ∈ cs, c.id ∈ r'.1 := by
      induction cs generalizing r with
      | nil => grind
      | cons c cs ihcs =>
        obtain ⟨seen₀, found⟩ := r
        have hc := hcs c mem_cons_self
        have hchas := hp.has_of_is hn hc
        have hrest := ihcs fun d hd => hcs d (mem_cons_of_mem c hd)
        simp only [foldl_cons]
        by_cases hmem : c.id ∈ seen₀
        · grind
        · rw [if_neg (by simpa using hmem)]
          have hless : p.unseen seen₀ ≤ p.unseen seen := unseen_mono fun i hi => (hr.seen i).mpr (.inl hi)
          have hfewer : p.unseen (c.id :: seen₀) ≤ depth := by
            have := unseen_cons hchas.lt_size hmem
            omega
          obtain ⟨hup, hsupers⟩ := ih hchas hfewer
          generalize p.superClassesFrom depth (c.id :: seen₀) c = r at hup hsupers
          have hgrow : ∀ i ∈ seen₀, i ∈ r.1 := fun i hi => (hup.seen i).mpr (.inl (mem_cons_of_mem _ hi))
          have hnew : Climbed p n seen (r.1, found ++ r.2 ++ [c]) := by
            refine ⟨fun i => ?_, fun k hk => ?_, fun k hk s hs => ?_⟩
            · have h₀ := hr.seen i
              have h₁ := hup.seen i
              grind
            · rcases mem_append.mp hk with hk | hk
              · rcases mem_append.mp hk with hk | hk
                · exact hr.above k hk
                · exact ⟨(hup.above k hk).1, .head hc (hup.above k hk).2⟩
              · grind
            · rcases mem_append.mp hk with hk | hk
              · rcases mem_append.mp hk with hk | hk
                · exact hgrow _ (hr.closed k hk s hs)
                · exact hup.closed k hk s hs
              · grind
          obtain ⟨hclimbed, hkeep, hall⟩ := hrest _ hnew
          refine ⟨hclimbed, fun i hi => hkeep i (hgrow i hi), fun d hd => ?_⟩
          rcases mem_cons.mp hd with rfl | hd
          · exact hkeep _ ((hup.seen _).mpr (.inl mem_cons_self))
          · exact hall d hd
    obtain ⟨hclimbed, -, hall⟩ := hfold (p.superClasses n) (fun _ h => h) (seen, []) (climbed_nil n seen)
    exact ⟨hclimbed, hall⟩

theorem mem_allSuperClasses (hp : p.Grown) {k : Node} (hc : p.Has c) :
    k ∈ c :: p.allSuperClasses c ↔ Relation.ReflTransGen p.Is c k := by
  have hunseen : p.unseen [c.id] ≤ p.nodes.size :=
    Nat.le_trans countP_le_length (Nat.le_of_eq length_range)
  obtain ⟨hclimbed, hsupers⟩ := climbed_superClassesFrom hp p.nodes.size hc hunseen
  rw [mem_cons]
  constructor
  · rintro (rfl | hk)
    · exact .refl
    · exact (hclimbed.above k hk).2.to_reflTransGen
  · intro h
    induction h with
    | refl => exact .inl rfl
    | @tail b s hb hs ih =>
      have hmem : s.id ∈ (p.superClassesFrom p.nodes.size [c.id] c).1 := by
        rcases ih with rfl | hbmem
        · exact hsupers s hs
        · exact hclimbed.closed b hbmem s hs
      have hbhas : p.Has b := by
        rcases ih with rfl | hbmem
        · exact hc
        · exact (hclimbed.above b hbmem).1
      have hshas := hp.has_of_is hbhas hs
      rcases (hclimbed.seen s.id).mp hmem with hid | ⟨k, hk, hid⟩
      · exact .inl (hshas.eq_of_id hc (mem_singleton.mp hid))
      · exact .inr ((hclimbed.above k hk).1.eq_of_id hshas hid ▸ hk)

/-! ### What is written down -/

/-- No type within the node is called by the name of a binding. -/
def namesNoBinding (p : Program) (n : Node) : Bool :=
  (p.within n).all fun t =>
    t.shape != .typeReference || ((p.declaration? t .type).all fun d => d.shape != .letBinding)

/-- A class says what its methods take and give back, and what it is, and names no binding for it. -/
def isWritten (p : Program) (c : Node) : Bool :=
  ((p.methods c).all fun m =>
      ((p.returnType? m).isSome || (p.body? m).isNone) && ((p.signature? m).all p.namesNoBinding)) &&
    (p.superExpressions c).all p.namesNoBinding

theorem namesNoBinding_child (hn : p.Has n) (hc : c ∈ p.children n) (h : p.namesNoBinding n) : p.namesNoBinding c := by
  obtain ⟨hchas, -, hlt, hstop⟩ := hn.child hc
  refine all_eq_true.mpr fun t ht => all_eq_true.mp h t ?_
  obtain ⟨hthas, hfirst, hlast⟩ := hchas.mem_within.mp ht
  exact hn.mem_within.mpr ⟨hthas, by omega, by omega⟩

theorem isSimple_of_namesNoBinding (hn : p.Has n) (ht : n.shape.isTypeExpression)
    (h : p.namesNoBinding n) : p.IsSimple n := by
  generalize hk : p.nodes.size - n.id = k
  induction k using Nat.strongRecOn generalizing n with
  | _ k ih =>
    cases hs : n.shape <;> rw [hs] at ht <;> cases ht
    · refine .reference hs (fun d hd hlet => ?_) fun a ha => ?_
      · have hself : n ∈ p.within n := hn.mem_within.mpr ⟨hn, Nat.le_refl _, hn.lt_stop⟩
        have hname := all_eq_true.mp h n hself
        simp [hs, hd, hlet] at hname
      · obtain ⟨hahas, hatype, hlt⟩ := hn.typeArgument ha
        have hsize := hahas.lt_size
        refine ih _ (by omega) hahas hatype ?_ rfl
        unfold Forest.typeArguments at ha
        split at ha
        · cases hl : p.part? (· == .typeArgumentList) n with
          | none =>
            rw [hl] at ha
            cases ha
          | some l => grind [namesNoBinding_child]
        · cases ha
    · exact .self hs

theorem namesNoBinding_parameter {q d : Node} (hq : p.Has q) (hd : d ∈ p.patternParameters q)
    (h : p.namesNoBinding q) : p.namesNoBinding d := by
  unfold Forest.patternParameters at hd
  split at hd
  · grind [namesNoBinding_child]
  · obtain ⟨e, he, rfl⟩ := mem_map.mp hd
    obtain ⟨pair, hpair, hparts⟩ := mem_filterMap.mp he
    obtain ⟨k, -, hrest⟩ := Option.bind_eq_some_iff.mp hparts
    obtain ⟨v, hv, heq⟩ := Option.bind_eq_some_iff.mp hrest
    cases heq
    have hmem := (mem_filter.mp hpair).1
    exact namesNoBinding_child (hq.child hmem).1 (Forest.part?_mem hv).1 (namesNoBinding_child hq hmem h)
  · cases hd

theorem isExplicit_of_written {m : Node} (hm : p.Has m) (hs : m.shape.isMethod)
    (hbody : ((p.returnType? m).isSome || (p.body? m).isNone))
    (hsignature : (p.signature? m).all p.namesNoBinding) : p.IsExplicit m where
  parameters := fun d hd => by
    obtain ⟨hdhas, hdshape⟩ := hm.parameter hd
    refine .parameter hdshape fun t ht => ?_
    refine isSimple_of_namesNoBinding (hdhas.part ht) (Forest.part?_mem ht).2 ?_
    refine namesNoBinding_child hdhas (Forest.part?_mem ht).1 ?_
    obtain ⟨q, hq⟩ := hm.methodPattern hs
    rw [Forest.parameters, hq] at hd
    have hinit : m.shape.isInitializer = false := by
      cases hshape : m.shape <;> rw [hshape] at hs <;> cases hs
      rfl
    rw [Forest.pattern?, hinit] at hq
    obtain ⟨sig, hsig, hpart⟩ := Option.bind_eq_some_iff.mp hq
    grind [Forest.signature?, namesNoBinding_parameter, namesNoBinding_child]
  result := fun r t hr ht => by
    obtain ⟨sig, hsig, hpart⟩ := Option.bind_eq_some_iff.mp hr
    rw [hsig] at hsignature
    have hsighas : p.Has sig := by
      rw [Forest.signature?, if_pos hs] at hsig
      exact hm.part hsig
    refine isSimple_of_namesNoBinding ((hsighas.part hpart).part ht) (Forest.part?_mem ht).2 ?_
    exact namesNoBinding_child (hsighas.part hpart) (Forest.part?_mem ht).1
      (namesNoBinding_child hsighas (Forest.part?_mem hpart).1 hsignature)
  body := fun hr => by simpa [hr] using hbody

theorem has_of_path {R : Node → Node → Prop} (hR : ∀ {c k}, p.Has c → R c k → p.Has k) {k : Node} (hc : p.Has c)
    (h : Relation.ReflTransGen R c k) : p.Has k := by
  induction h with
  | refl => exact hc
  | tail _ hs ih => exact hR ih hs

theorem Grown.acyclic_of_before (hp : p.Grown) {R : Node → Node → Prop} (hR : ∀ {c k}, p.Has c → R c k → p.Has k)
    (h : ∀ c ∈ p.all, ∀ k, R c k → k.id < c.id) (hc : p.Has c) : ¬ Relation.TransGen R c c := by
  have hless (k : Node) (hk : Relation.TransGen R c k) : p.Has k ∧ k.id < c.id := by
    induction hk with
    | single hs => exact ⟨hR hc hs, h c (hp.sown.mem_all.mpr hc) _ hs⟩
    | tail _ hs ih => exact ⟨hR ih.1 hs, Nat.lt_trans (h _ (hp.sown.mem_all.mpr ih.1) _ hs) ih.2⟩
  exact fun hcycle => Nat.lt_irrefl _ (hless c hcycle).2

theorem namesClasses_of_all (hp : p.Grown) (hc : p.Has c)
    (h : ∀ k ∈ c :: p.allSuperClasses c, (p.superExpressions k).all p.namesNoBinding) : p.NamesClasses c := by
  intro k hk t ht
  obtain ⟨hthas, httype⟩ := (has_of_path hp.has_of_is hc hk).superExpression ht
  grind [mem_allSuperClasses, isSimple_of_namesNoBinding]

theorem isDeclared_of_written (hp : p.Grown) (hc : p.Has c) (hacyclic : ∀ k, p.Has k → ¬ Relation.TransGen p.Is k k)
    (h : ∀ k ∈ c :: p.allSuperClasses c, p.isWritten k) : p.IsDeclared c where
  methods := fun k hk m hm => by
    have hkhas := has_of_path hp.has_of_is hc hk
    obtain ⟨hmhas, hshape⟩ := hkhas.mem_methods hm
    have hwritten := h k ((mem_allSuperClasses hp hc).mpr hk)
    grind [isWritten, isExplicit_of_written]
  supers := namesClasses_of_all hp hc fun k hk => by grind [isWritten]
  acyclic := fun k hk => hacyclic k (has_of_path hp.has_of_is hc hk)

/-! ### After any questions -/

/-- What can be asked about the types and the names of a program. -/
inductive Question (p : Program) where
  | expression (n : Node) (h : p.Has n) (he : n.shape.isExpression)
  | declaration (n : Node) (h : p.Has n) (hd : n.shape.isDeclaration)
  | type (n : Node) (h : p.Has n) (ht : n.shape.isTypeExpression)
  | library (name : String)
  | expected (n : Node) (h : p.Has n)
  | message (n : Node) (h : p.Has n)
  | behaviours (t : Ty) (h : t.Over p)
  | fits (assignee assigned : Ty) (invariant : Bool) (ht : assignee.Over p) (hu : assigned.Over p)
  | usage (n : Node) (h : p.Has n)

def Question.ask {p : Program} : Question p → Typing Unit
  | expression n _ _ => do let _ ← p.expressionType n
  | declaration n _ _ => do let _ ← p.declarationType n
  | type n _ _ => do let _ ← p.typeExpressionType n
  | library name => do let _ ← p.standardType name
  | expected n _ => do let _ ← p.expectedType n
  | message n _ => do let _ ← p.messageBehaviour n
  | behaviours t _ => do let _ ← p.behaviours t
  | fits t u invariant _ _ => do let _ ← p.refusal t u invariant
  | usage n _ => do let _ ← p.usage n

theorem Question.asks (hp : p.Grown) (q : Question p) : p.Asks q.ask := by
  cases q with
  | expression n h he => exact .bind (.of fun _ => keeps_expressionType hp h he) fun _ => .pure _
  | declaration n h hd =>
    have ht : n.shape.isTypeExpression = false := by
      cases hs : n.shape <;> rw [hs] at hd <;> cases hd <;> rfl
    exact .bind (.of fun _ => keeps_declarationType hp h ht) fun _ => .pure _
  | type n h ht => exact .bind (.of fun _ => keeps_typeExpressionType hp h ht) fun _ => .pure _
  | library name => exact .bind (.of fun _ => keeps_standardType hp name) fun _ => .pure _
  | expected n h => exact .bind (.of fun _ => keeps_expectedType hp h) fun _ => .pure _
  | message n h => exact .bind (.of fun _ => keeps_messageBehaviour hp h) fun _ => .pure _
  | behaviours t h => exact .bind (.of fun _ => keeps_behaviours hp h) fun _ => .pure _
  | fits t u invariant ht hu => exact .bind (asks_refusal hp ht hu invariant) fun _ => .pure _
  | usage n h => exact .bind (asks_usage hp h) fun _ => .pure _

def after {p : Program} (qs : List (Question p)) : Memo := ((qs.forM Question.ask).run (.fresh p)).2

theorem since_after (hp : p.Grown) (qs : List (Question p)) : p.Since (.fresh p) (after qs) :=
  (Asks.forM (fun q _ => q.asks hp) (.fresh p) (.fresh p) (since_fresh p)).2

def answersOf (p : Program) (c : Node) (m : Memo) : List Behaviour :=
  ((do p.behaviours (← p.declarationType c) : Typing (List Behaviour)).run m).1

theorem answersOf_eq (hp : p.Grown) {base m : Memo} (hc : p.Has c) (hclass : c.shape.isClass)
    (hm : p.Since base m) : ∃ name args bs, p.answersOf c m = p.applied c name args bs ∧ p.IsAnswer c bs := by
  obtain ⟨⟨name, args, hty⟩, hsince⟩ := keeps_classType hp hc hclass m hm
  obtain ⟨bs, m', hbs, hanswer, -⟩ := run_behaviours hp hc hclass hsince name args
  have hrun : p.answersOf c m = ((p.behaviours ((p.declarationType c).run m).1).run
    ((p.declarationType c).run m).2).1 := rfl
  grind

/-- A class answers to its own methods and to those of the classes above it. -/
theorem class_answers {ss : List Source} (hclean : ∀ s ∈ ss, Diagnostic.hasErrors (s.parse none).remarks = false)
    (hp : p = .ofDocuments (ss.map (·.parse none))) (hacyclic : ∀ k, p.Has k → ¬ Relation.TransGen p.Is k k)
    {c : Node} (hc : p.Has c) (hclass : c.shape.isClass = true) (qs : List (Question p)) :
    ((p.answersOf c (after qs)).map (·.selector)).Nodup ∧
    (∀ s n, (p.methods c).find? (fun n => p.methodSelector? n == some s) = some n →
      ∃ b, (p.answersOf c (after qs)).find? (fun b => b.selector == s) = some b ∧ b.method = n.id) ∧
    ((∀ k ∈ c :: p.allSuperClasses c, (p.superExpressions k).all p.namesNoBinding = true) →
      ∀ b ∈ p.answersOf c (after qs), ∃ k ∈ c :: p.allSuperClasses c, ∃ n ∈ p.methods k,
        p.methodSelector? n = some b.selector) ∧ ((∀ k ∈ c :: p.allSuperClasses c, p.isWritten k = true) →
      ∀ s, (∃ b ∈ p.answersOf c (after qs), b.selector = s) ↔
        ∃ k ∈ c :: p.allSuperClasses c, ∃ n ∈ p.methods k, p.methodSelector? n = some s) := by
  have hgrown : p.Grown := hp ▸ grown_of_no_errors hclean
  obtain ⟨name, args, bs, hbs, hanswer⟩ := answersOf_eq hgrown hc hclass (since_after hgrown qs)
  have hselectors : (p.answersOf c (after qs)).map (·.selector) = bs.map (·.selector) := by
    rw [hbs, applied, map_map]
    rfl
  have hmem (s : String) : (∃ b ∈ p.answersOf c (after qs), b.selector = s) ↔ ∃ b ∈ bs, b.selector = s := by
    simp only [← mem_map, hselectors]
  have hunderstands (s : String) : p.Understands c s ↔
      ∃ k ∈ c :: p.allSuperClasses c, ∃ n ∈ p.methods k, p.methodSelector? n = some s := by
    simp only [mem_allSuperClasses hgrown hc]
    rfl
  refine ⟨hselectors ▸ hanswer.found.nodup, fun s n hn => ?_, fun hnames b hb => ?_, fun hwritten s => ?_⟩
  · obtain ⟨b, hb, rfl, hid⟩ := hanswer.own s n hn
    rw [hbs, find?_applied, find?_selector hanswer.found.nodup hb]
    exact ⟨_, rfl, hid⟩
  · rw [← hunderstands]
    obtain ⟨b', hb', hs⟩ := (hmem b.selector).mp ⟨b, hb, rfl⟩
    exact hs ▸ hanswer.within (namesClasses_of_all hgrown hc hnames) b' hb'
  · rw [hmem, ← hunderstands]
    exact hanswer.full (isDeclared_of_written hgrown hc hacyclic hwritten) s

def wolves : List Source :=
  [.ofString .module "test:wolves.loa"
    "class Wolf { howl -> Wolf => self. pup -> Dog => Dog. }\nclass Dog { is Wolf. bark -> Wolf => self howl. }"]

def wolfProgram : Program := .ofDocuments (wolves.map (·.parse none))

theorem class_answers_wolves : (∀ s ∈ wolves, Diagnostic.hasErrors (s.parse none).remarks = false) ∧
    (∀ k, wolfProgram.Has k → ¬ Relation.TransGen wolfProgram.Is k k) ∧
    (wolfProgram.matching Shape.isClass).length = 2 ∧
    ∀ c ∈ wolfProgram.matching Shape.isClass, ∀ qs : List (Question wolfProgram),
      ((wolfProgram.answersOf c (after qs)).map (·.selector)).Nodup ∧
      ∀ s, (∃ b ∈ wolfProgram.answersOf c (after qs), b.selector = s) ↔
        ∃ k ∈ c :: wolfProgram.allSuperClasses c, ∃ n ∈ wolfProgram.methods k,
          wolfProgram.methodSelector? n = some s := by
  have hclean : ∀ s ∈ wolves, Diagnostic.hasErrors (s.parse none).remarks = false := by decide +kernel
  have hgrown : wolfProgram.Grown := grown_of_no_errors hclean
  -- Classes are declared behind those they say they are.
  have hbefore : ∀ k ∈ wolfProgram.all, ∀ s ∈ wolfProgram.superClasses k, s.id < k.id := by decide +kernel
  have hacyclic (k : Node) (hk : wolfProgram.Has k) := hgrown.acyclic_of_before hgrown.has_of_is hbefore hk
  have hwritten : ∀ c ∈ wolfProgram.matching Shape.isClass, ∀ k ∈ c :: wolfProgram.allSuperClasses c,
      wolfProgram.isWritten k = true := by decide +kernel
  refine ⟨hclean, hacyclic, by decide +kernel, fun c hc qs => ?_⟩
  obtain ⟨hhas, hclass⟩ := has_of_mem_matching hgrown hc
  obtain ⟨hnodup, -, -, hfull⟩ := class_answers hclean rfl hacyclic hhas hclass qs
  exact ⟨hnodup, hfull (hwritten c hc)⟩

end Parlance.Program
