import Parlance.Proofs.Answers
/-!
Every question about the types of a program finds what is remembered in order and leaves it so. This is said of
all questions at once, by induction on the patience they have.
-/
namespace Parlance

open List

namespace Pending

variable {p : Program} {a : Pending} {n c : Node}

/-- No question is open about a light node or about a class that is written down. -/
structure Clear (p : Program) (a : Pending) : Prop where
  nodes : ∀ k, p.Has k → p.IsLight k → k.id ∉ a.nodes
  classes : ∀ k, p.Has k → p.IsDeclared k → k.id ∉ a.classes

/-- The type of the node can be asked for: if a light question is open this one is lighter. -/
structure Allows (p : Program) (a : Pending) (n : Node) : Prop where
  nodes : ∀ k, p.Has k → p.IsLight k → k.id ∈ a.nodes → p.IsLight n ∧ p.height n < p.height k
  classes : ∀ k, p.Has k → p.IsDeclared k → k.id ∈ a.classes → p.IsLight n

/-- The behaviours of the class can be asked for: it is above those that are open and written down. -/
structure AllowsClass (p : Program) (a : Pending) (c : Node) : Prop where
  nodes : ∀ k, p.Has k → p.IsLight k → k.id ∉ a.nodes
  classes : ∀ k, p.Has k → p.IsDeclared k → k.id ∈ a.classes →
    p.IsDeclared c ∧ Relation.TransGen p.Is k c

/-- The questions that are open while the type of a node is worked out. -/
abbrev atNode (a : Pending) (n : Node) (b : Nat) : Pending := { a with nodes := n.id :: a.nodes, budget := b }

/-- The questions that are open while the behaviours of a class are worked out. -/
abbrev atClass (a : Pending) (c : Node) (b : Nat) : Pending :=
  { a with classes := c.id :: a.classes, budget := b }

theorem Clear.allows (h : a.Clear p) (n : Node) : a.Allows p n :=
  ⟨fun k hk hl hmem => absurd hmem (h.nodes k hk hl), fun k hk hd hmem => absurd hmem (h.classes k hk hd)⟩

theorem Clear.allowsClass (h : a.Clear p) (c : Node) : a.AllowsClass p c :=
  ⟨h.nodes, fun k hk hd hmem => absurd hmem (h.classes k hk hd)⟩

theorem Allows.not_mem (h : a.Allows p n) (hn : p.Has n) (hl : p.IsLight n) : n.id ∉ a.nodes :=
  fun hmem => Nat.lt_irrefl _ (h.nodes n hn hl hmem).2

theorem Allows.clear (h : a.Allows p n) (hn : p.Has n) (hl : ¬ p.IsLight n) (b : Nat) : (a.atNode n b).Clear p where
  nodes := fun k hk hlk hmem => by
    rcases mem_cons.mp hmem with heq | hmem
    · exact hl (hk.eq_of_id hn heq ▸ hlk)
    · exact hl (h.nodes k hk hlk hmem).1
  classes := fun k hk hd hmem => hl (h.classes k hk hd hmem)

theorem Allows.lighter (h : a.Allows p n) (hn : p.Has n) (hlc : p.IsLight c)
    (hlt : p.height c < p.height n) (b : Nat) : (a.atNode n b).Allows p c where
  nodes := fun k hk hlk hmem => by
    refine ⟨hlc, ?_⟩
    rcases mem_cons.mp hmem with heq | hmem
    · exact hk.eq_of_id hn heq ▸ hlt
    · exact Nat.lt_trans hlt (h.nodes k hk hlk hmem).2
  classes := fun _ _ _ _ => hlc

theorem AllowsClass.not_mem (h : a.AllowsClass p c) (hc : p.Has c) (hd : p.IsDeclared c) : c.id ∉ a.classes :=
  fun hmem => hd.acyclic c .refl (h.classes c hc hd hmem).2

theorem AllowsClass.clear (h : a.AllowsClass p c) (hc : p.Has c) (hd : ¬ p.IsDeclared c) (b : Nat) :
    (a.atClass c b).Clear p where
  nodes := h.nodes
  classes := fun k hk hdk hmem => by
    rcases mem_cons.mp hmem with heq | hmem
    · exact hd (hk.eq_of_id hc heq ▸ hdk)
    · exact hd (h.classes k hk hdk hmem).1

theorem AllowsClass.above {s : Node} (h : a.AllowsClass p c) (hc : p.Has c) (hs : p.Is c s)
    (hd : p.IsDeclared s) (b : Nat) : (a.atClass c b).AllowsClass p s where
  nodes := h.nodes
  classes := fun k hk hdk hmem => by
    refine ⟨hd, ?_⟩
    rcases mem_cons.mp hmem with heq | hmem
    · exact hk.eq_of_id hc heq ▸ .single hs
    · exact .tail (h.classes k hk hdk hmem).2 hs

end Pending

namespace Program

variable {p : Program} {a : Pending} {bs old more : List Behaviour} {b : Behaviour} {s : String} {k m q t c n : Node}
  {receiver : Ty}

theorem IsSimple.isTypeExpression (h : p.IsSimple n) : n.shape.isTypeExpression := by
  cases h with
  | self h => rw [h]; rfl
  | reference h => rw [h]; rfl

def isLightShape : Shape → Bool
  | .typeReference | .selfType | .classNode _ | .typeParameter _ | .importDirective | .parameter => true
  | _ => false

theorem IsLight.shape (h : p.IsLight n) : isLightShape n.shape := by
  rcases h with h | h | ⟨h, -⟩
  · cases h with
    | self h => rw [h]; rfl
    | reference h => rw [h]; rfl
  · rcases h with h | h | h
    · cases hs : n.shape <;> rw [hs] at h <;> cases h
      rfl
    · cases hs : n.shape <;> rw [hs] at h <;> cases h
      rfl
    · rw [h]; rfl
  · rw [h]; rfl

theorem not_isLight_of_shape (h : isLightShape n.shape = false) : ¬ p.IsLight n := fun hl => by
  cases h.symm.trans hl.shape

theorem not_isLight_of_isExpression (h : n.shape.isExpression) : ¬ p.IsLight n := by
  refine not_isLight_of_shape ?_
  cases hs : n.shape <;> rw [hs] at h <;> first | rfl | cases h

theorem IsDeclared.above {s : Node} (h : p.IsDeclared c) (hs : p.Is c s) : p.IsDeclared s :=
  ⟨fun k hk => h.methods k (.head hs hk), fun k hk => h.supers k (.head hs hk),
    fun k hk => h.acyclic k (.head hs hk)⟩

/-! ### Behaviours put together -/

theorem addBehaviours_induction {P : List Behaviour → Prop} (h : P old)
    (step : ∀ bs, ∀ c ∈ more, P bs → (∀ b ∈ bs, b.selector ≠ c.selector) → P (bs ++ [c])) :
    P (addBehaviours old more) := by
  unfold addBehaviours
  induction more generalizing old with
  | nil => exact h
  | cons c more ih =>
    rw [foldl_cons]
    refine ih ?_ fun bs d hd => step bs d (.tail _ hd)
    split
    · exact h
    · rename_i hany
      exact step old c mem_cons_self h fun b hb hs => hany (any_eq_true.mpr ⟨b, hb, beq_iff_eq.mpr hs⟩)

theorem mem_addBehaviours (h : b ∈ addBehaviours old more) : b ∈ old ∨ b ∈ more := by
  refine addBehaviours_induction (P := fun bs => ∀ b ∈ bs, b ∈ old ∨ b ∈ more) (fun b hb => .inl hb) ?_ b h
  intro bs c hc hbs _
  exact forall_mem_append.mpr ⟨hbs, forall_mem_singleton.mpr (.inr hc)⟩

theorem mem_addBehaviours_left (h : b ∈ old) (more : List Behaviour) : b ∈ addBehaviours old more :=
  addBehaviours_induction (P := (b ∈ ·)) h fun _ _ _ hb _ => mem_append_left _ hb

theorem nodup_addBehaviours (h : (old.map (·.selector)).Nodup) (more : List Behaviour) :
    ((addBehaviours old more).map (·.selector)).Nodup := by
  refine addBehaviours_induction (P := fun bs => (bs.map (·.selector)).Nodup) h fun bs c _ hbs hne => ?_
  rw [map_append, nodup_append]
  refine ⟨hbs, by simp, fun s hs t ht => ?_⟩
  obtain ⟨b, hb, rfl⟩ := mem_map.mp hs
  rw [mem_singleton.mp ht]
  exact hne b hb

theorem mem_addBehaviours_of_find? (hno : ∀ c ∈ old, c.selector ≠ s)
    (h : more.find? (fun b => b.selector == s) = some b) : b ∈ addBehaviours old more := by
  unfold addBehaviours
  induction more generalizing old with
  | nil => cases h
  | cons c more ih =>
    rw [foldl_cons]
    rw [find?_cons] at h
    split at h
    · rename_i hc
      cases h
      rw [if_neg]
      · exact mem_addBehaviours_left (by simp) more
      · intro hany
        obtain ⟨d, hd, hsame⟩ := any_eq_true.mp hany
        exact hno d hd ((eq_of_beq hsame).trans (eq_of_beq hc))
    · rename_i hc
      refine ih ?_ h
      split
      · exact hno
      · exact forall_mem_append.mpr ⟨hno, forall_mem_singleton.mpr (by simpa using hc)⟩

theorem selector_mem_addBehaviours : (∃ b ∈ addBehaviours old more, b.selector = s) ↔
    (∃ b ∈ old, b.selector = s) ∨ ∃ b ∈ more, b.selector = s := by
  constructor
  · rintro ⟨b, hb, hs⟩
    exact (mem_addBehaviours hb).imp (fun h => ⟨b, h, hs⟩) fun h => ⟨b, h, hs⟩
  · rintro (⟨b, hb, hs⟩ | ⟨b, hb, hs⟩)
    · exact ⟨b, mem_addBehaviours_left hb more, hs⟩
    · by_cases hin : ∃ c ∈ old, c.selector = s
      · obtain ⟨c, hc, hs⟩ := hin
        exact ⟨c, mem_addBehaviours_left hc more, hs⟩
      · have hsome : (more.find? fun c => c.selector == s).isSome := find?_isSome.mpr ⟨b, hb, beq_iff_eq.mpr hs⟩
        obtain ⟨d, hd⟩ := Option.isSome_iff_exists.mp hsome
        have hs := find?_some hd
        exact ⟨d, mem_addBehaviours_of_find? (fun c hc hs => hin ⟨c, hc, hs⟩) hd, eq_of_beq hs⟩

/-! ### What the questions keep -/

/-- What can be asked about the types of a program. -/
inductive Topic where
  | expression | self | standard | numeric | expected | argument | declaration | typeExpression
  | plainBehaviours | behaviours | object | class_ | method | pattern | message

/-- What a question keeps that has a given patience. Between two answers that are remembered the
patience of a question outlasts those it asks. -/
def Topic.Kept (p : Program) (fuel : Nat) : Topic → Prop
  | expression => ∀ (a : Pending) n, p.Has n → n.shape.isExpression → a.Clear p → a.budget + 1 ≤ fuel →
    Keeps (Memo.Sound p a) (p.expressionTypeIn fuel n) (·.Over p)
  | self => ∀ (a : Pending) n, (∀ c, p.closestClass? n = some c → p.Has c ∧ a.Allows p c) →
    a.budget + 2 ≤ fuel →
    Keeps (Memo.Sound p a) (p.selfTypeIn fuel n)
      fun t => t.Over p ∧ t = (p.closestClass? n).elim .unknown fun c => .self (p.written c)
  | standard => ∀ (a : Pending) name, a.Clear p → a.budget + 2 ≤ fuel →
    Keeps (Memo.Sound p a) (p.standardTypeIn fuel name)
      fun t => t.Over p ∧ t = (p.standard? name).elim .unknown p.written
  | numeric => ∀ (a : Pending) n, p.Has n → a.Clear p → a.budget + 8 + n.id ≤ fuel →
    Keeps (Memo.Sound p a) (p.numericContextIn fuel n) fun o => ∀ t ∈ o, t.Over p
  | expected => ∀ (a : Pending) n, p.Has n → a.Clear p → a.budget + 7 + n.id ≤ fuel →
    Keeps (Memo.Sound p a) (p.expectedTypeIn fuel n) fun o => ∀ t ∈ o, t.Over p
  | argument => ∀ (a : Pending) n i, p.Has n → a.Clear p → a.budget + 6 ≤ fuel →
    Keeps (Memo.Sound p a) (p.argumentTypeIn fuel n i) fun o => ∀ t ∈ o, t.Over p
  | declaration => ∀ (a : Pending) n, p.Has n → n.shape.isTypeExpression = false → a.Allows p n →
    a.budget + 1 ≤ fuel → Keeps (Memo.Sound p a) (p.declarationTypeIn fuel n)
      fun t => t.Over p ∧ (p.IsLight n → t = p.written n)
  | typeExpression => ∀ (a : Pending) n, p.Has n → n.shape.isTypeExpression → a.Allows p n →
    a.budget + 1 ≤ fuel → Keeps (Memo.Sound p a) (p.typeExpressionTypeIn fuel n)
      fun t => t.Over p ∧ (p.IsLight n → t = p.written n)
  | plainBehaviours => ∀ (a : Pending) t, t.Over p → t.IsPlain → a.Clear p → a.budget + 3 ≤ fuel →
    Keeps (Memo.Sound p a) (p.behavioursIn fuel t) fun bs => ∀ b ∈ bs, b.Over p
  | behaviours => ∀ (a : Pending) t, t.Over p → a.Clear p → a.budget + 4 ≤ fuel →
    Keeps (Memo.Sound p a) (p.behavioursIn fuel t) fun bs => ∀ b ∈ bs, b.Over p
  | object => ∀ (a : Pending) c args receiver, p.Has c → (∀ t ∈ args, t.Over p) → receiver.Over p →
    a.Clear p → a.budget + 2 ≤ fuel →
    Keeps (Memo.Sound p a) (p.objectBehavioursIn fuel c.id args receiver) fun bs => ∀ b ∈ bs, b.Over p
  | class_ => ∀ (a : Pending) c, p.Has c → a.AllowsClass p c → a.budget + 1 ≤ fuel →
    Keeps (Memo.Sound p a) (p.classBehavioursIn fuel c) (Memo.Flattens p a c)
  | method => ∀ (a : Pending) m receiver, p.Has m → m.shape.isMethod → receiver.Over p →
    (a.Clear p ∨ p.IsExplicit m ∧ ∀ n, p.IsLight n → a.Allows p n) → a.budget + 3 ≤ fuel →
    Keeps (Memo.Sound p a) (p.methodBehaviourIn fuel m receiver) fun o =>
      ∃ b, o = some b ∧ b.Over p ∧ b.method = m.id ∧ p.methodSelector? m = some b.selector ∧
        (p.IsExplicit m → p.stated? m receiver = some b)
  | pattern => ∀ (a : Pending) m receiver result q, p.Has m → p.Has q → q.shape.isPattern →
    receiver.Over p → result.Over p → (∀ d ∈ p.patternParameters q, a.Allows p d) → a.budget + 2 ≤ fuel →
    Keeps (Memo.Sound p a) (p.patternBehaviourIn fuel m.id receiver result q) fun o =>
      ∃ b, o = some b ∧ b.Over p ∧ b.method = m.id ∧ p.patternSelector? q = some b.selector ∧
        (p.IsLightPattern q → p.statedPattern? m.id receiver result q = some b)
  | message => ∀ (a : Pending) n, p.Has n → a.Clear p → a.budget + 5 ≤ fuel →
    Keeps (Memo.Sound p a) (p.messageBehaviourIn fuel n) fun o => ∀ b ∈ o, b.Over p

def Kept (p : Program) (fuel : Nat) : Prop := ∀ q : Topic, q.Kept p fuel

variable {fuel : Nat} {r : Node} {inherited : List Behaviour} {done : List Node} {base : Memo}

theorem isTypeExpression_of_declares {k : NameKind} {s : Shape} (h : k.declares s) : s.isTypeExpression = false := by
  cases s <;> cases k <;> first | rfl | cases h

/-- What a name means is not itself a type that is written down. -/
theorem Grown.not_typeExpression (hp : p.Grown) {k : NameKind} {d : Node} (hn : p.Has n)
    (h : p.declaration? n k = some d) : p.Has d ∧ d.shape.isTypeExpression = false := by
  obtain ⟨hd, hs | hs | hs⟩ := hp.meaning hn h
  · exact ⟨hd, isTypeExpression_of_declares hs⟩
  · exact ⟨hd, by rw [hs]; rfl⟩
  · exact ⟨hd, by rw [hs]; rfl⟩

theorem Grown.messageReceiver (hp : p.Grown) (hn : p.Has n) (h : p.receiver? n = some r) :
    p.Has r ∧ r.shape.isExpression := by
  obtain ⟨parent, hparent, hrest⟩ := Option.bind_eq_some_iff.mp h
  obtain ⟨-, -, hvalue⟩ := Option.bind_eq_some_iff.mp hrest
  exact ⟨(hp.sown.has_parent hn hparent).1.part hvalue, (Forest.part?_mem hvalue).2⟩

theorem has_returnType (hm : p.Has m) (h : p.returnType? m = some r) : p.Has r := by
  obtain ⟨s, hs, hr⟩ := Option.bind_eq_some_iff.mp h
  grind [Forest.signature?]

theorem has_body {e : Node} (hm : p.Has m) (h : p.body? m = some e) : p.Has e ∧ e.shape.isExpression := by
  unfold Forest.body? at h
  split at h
  · obtain ⟨b, hb, he⟩ := Option.bind_eq_some_iff.mp h
    exact ⟨(hm.part hb).part he, (Forest.part?_mem he).2⟩
  · cases h

theorem Grown.memberVariable (hp : p.Grown) {v : Node} (hn : p.Has n)
    (hv : v ∈ ((p.closestClass? n).map p.memberVariables).getD []) : p.Has v ∧ v.shape.isTypeExpression = false := by
  cases hc : p.closestClass? n with
  | none =>
    rw [hc] at hv
    cases hv
  | some c =>
    rw [hc] at hv
    obtain ⟨hmem, hshape⟩ := mem_filter.mp hv
    refine ⟨(hp.closestClass hn hc).1.mem_members hmem, ?_⟩
    cases hs : v.shape <;> rw [hs] at hshape <;> cases hshape
    rfl

theorem isTypeExpression_of_isClass {s : Shape} (h : s.isClass) : s.isTypeExpression = false := by
  cases s <;> cases h
  rfl

theorem eq_map_of_forall₂ {α β : Type} {f : α → β} {as : List α} {bs : List β}
    (h : List.Forall₂ (fun a b => b = f a) as bs) : bs = as.map f := by
  induction h with
  | nil => rfl
  | cons hb _ ih => rw [hb, ih, map_cons]

theorem Kept.expression_succ (hp : p.Grown) (h : Kept p fuel) : Topic.Kept p (fuel + 1) .expression := by
  intro a n hn he ha hb
  have hlight := not_isLight_of_isExpression (p := p) he
  rw [expressionTypeIn]
  refine .mono (Memo.keeps_type hn (fun hl => absurd hl hlight) fun b hbudget => ?_) fun t ht => ht.1
  have hclear : (a.atNode n b).Clear p := (ha.allows n).clear hn hlight b
  unfold stride at hbudget
  have hsize := hn.lt_size
  refine .mono (Q := (·.Over p)) ?_ fun t ht => ⟨ht, fun hl => absurd hl hlight⟩
  split
  case h_1 =>
    split
    · exact .pure .unknown
    · rename_i d hd
      obtain ⟨hdhas, hdtype⟩ := hp.not_typeExpression hn hd
      refine .bind (h .declaration _ d hdhas hdtype (hclear.allows d) (by simp only; omega)) fun t ht => ?_
      split
      · exact .pure ht.1
      · split
        · rename_i name id args
          cases ht.1 with
          | object hc hargs =>
            split
            · exact .pure (.classObject hc hargs)
            · exact .pure (.object hc hargs)
        · exact .pure .unknown
  case h_2 =>
    refine .mono (h .self _ n (fun c hc => ?_) (by simp only; omega)) fun t ht => ht.1
    exact ⟨(hp.closestClass hn hc).1, hclear.allows c⟩
  case h_3 | h_4 =>
    split
    · rename_i m hm
      have hmem := (mem_filter.mp (mem_of_getLast? hm)).1
      refine .bind (h .message _ m (hn.child hmem).1 hclear (by simp only; omega)) fun o ho => ?_
      split
      · rename_i b'
        exact .pure (ho b' rfl).result
      · exact .pure .unknown
    · exact .pure .unknown
  case h_5 | h_6 =>
    split
    · rename_i e hvalue
      exact h .expression _ e (hn.part hvalue) (Forest.part?_mem hvalue).2 hclear (by simp only; omega)
    · exact .pure .unknown
  case h_7 | h_8 => exact (h .standard _ _ hclear (by simp only; omega)).mono fun t ht => ht.1
  case h_9 => exact .pure (.symbol _)
  case h_10 =>
    refine .bind (h .numeric _ n hn hclear (by simp only; omega)) fun o ho => .pure ?_
    cases o with
    | none => exact .integerLiteral
    | some t => exact ho t rfl
  case h_11 =>
    refine .bind (h .numeric _ n hn hclear (by simp only; omega)) fun o ho => .pure ?_
    cases o with
    | none => exact .floatLiteral
    | some t => exact ho t rfl
  case h_12 => exact .pure .unknown

theorem Kept.self_succ (hp : p.Grown) (h : Kept p fuel) : Topic.Kept p (fuel + 1) .self := by
  intro a n hc hb
  rw [selfTypeIn]
  split
  · rename_i c hclass
    obtain ⟨hhas, hallows⟩ := hc c hclass
    have hshape := find?_some hclass
    refine .bind (h .declaration a c hhas (isTypeExpression_of_isClass hshape) hallows (by omega)) fun t ht => ?_
    obtain rfl := ht.2 (.declaration (.inl hshape))
    refine .pure ⟨.self ht.1 (.inr ?_), by rw [hclass]; rfl⟩
    rw [(hp.made_class hhas hshape).1]
    rfl
  · rename_i hnone
    exact .pure ⟨.unknown, by rw [hnone]; rfl⟩

theorem Kept.standard_succ (hp : p.Grown) (h : Kept p fuel) : Topic.Kept p (fuel + 1) .standard := by
  intro a name ha hb
  rw [standardTypeIn]
  split
  · rename_i c hc
    obtain ⟨hhas, hshape⟩ := hp.standard hc
    refine (h .declaration a c hhas (isTypeExpression_of_isClass hshape) (ha.allows c) (by omega)).mono
      fun t ht => ⟨ht.1, ?_⟩
    rw [hc]
    exact ht.2 (.declaration (.inl hshape))
  · rename_i hnone
    exact .pure ⟨.unknown, by rw [hnone]; rfl⟩

theorem Grown.isPlain_standard (hp : p.Grown) (name : String) :
    ((p.standard? name).elim .unknown p.written).IsPlain := by
  cases hc : p.standard? name with
  | none => exact .inl rfl
  | some c =>
    obtain ⟨hhas, hshape⟩ := hp.standard hc
    refine .inr ?_
    rw [Option.elim, (hp.made_class hhas hshape).1]
    rfl

theorem Grown.madeOf_standard (hp : p.Grown) (name : String) :
    ((p.standard? name).elim .unknown p.written).MadeOf fun id => ∃ c, p.standard? name = some c ∧ c.id = id := by
  cases hc : p.standard? name with
  | none => exact .unknown
  | some c =>
    obtain ⟨hhas, hshape⟩ := hp.standard hc
    exact (hp.made_class hhas hshape).2.mono fun id hid => ⟨c, rfl, hid.symm⟩

theorem Kept.numeric_succ (h : Kept p fuel) : Topic.Kept p (fuel + 1) .numeric := by
  intro a n hn ha hb
  rw [numericContextIn]
  refine .bind (h .expected a n hn ha (by omega)) fun o ho => ?_
  split
  · rename_i name id args
    refine .pure fun t ht => ?_
    obtain ⟨-, -, rfl⟩ := Option.map_eq_some_iff.mp ht
    exact ho _ rfl
  · exact .pure nofun

theorem Kept.argument_succ (h : Kept p fuel) : Topic.Kept p (fuel + 1) .argument := by
  intro a n i hn ha hb
  rw [argumentTypeIn]
  refine .bind (h .message a n hn ha (by omega)) fun o ho => ?_
  split
  · rename_i b
    refine .pure fun t ht => ?_
    cases ht
    exact .argument (ho b rfl).arguments i
  · exact .pure nofun

theorem Kept.message_succ (hp : p.Grown) (h : Kept p fuel) : Topic.Kept p (fuel + 1) .message := by
  intro a n hn ha hb
  rw [messageBehaviourIn]
  split
  · exact .pure nofun
  · split
    · rename_i r selector hr hs
      obtain ⟨hrhas, hrshape⟩ := hp.messageReceiver hn hr
      refine .bind (h .expression a r hrhas hrshape ha (by omega)) fun t ht => ?_
      refine .bind (h .behaviours a t ht ha (by omega)) fun bs hbs => .pure fun b hb => ?_
      exact hbs b (mem_of_find?_eq_some hb)
    · exact .pure nofun

theorem Keeps.asked {I : Memo → Prop} {x : Typing Ty} {Q : Ty → Prop} (h : Keeps I x Q)
    (hq : ∀ t, Q t → t.Over p) : Keeps I (some <$> x) fun o => ∀ t ∈ o, t.Over p :=
  h.map fun t ht u hu => by
    cases hu
    exact hq t ht

theorem Kept.expected_succ (hp : p.Grown) (h : Kept p fuel) : Topic.Kept p (fuel + 1) .expected := by
  intro a n hn ha hb
  have htype (q t : Node) (hq : p.Has q) (ht : p.type? q = some t) :
      Keeps (Memo.Sound p a) (some <$> p.typeExpressionTypeIn fuel t) fun o => ∀ t ∈ o, t.Over p :=
    Keeps.asked (h .typeExpression a t (hq.part ht) (Forest.part?_mem ht).2 (ha.allows t) (by omega))
      fun t ht => ht.1
  rw [expectedTypeIn]
  split
  · exact .pure nofun
  · rename_i parent hparent
    obtain ⟨hparenthas, hlt, -⟩ := hp.sown.has_parent hn hparent
    have hup : Keeps (Memo.Sound p a) (p.expectedTypeIn fuel parent) fun o => ∀ t ∈ o, t.Over p :=
      h .expected a parent hparenthas ha (by omega)
    split
    case h_1 =>
      split
      · rename_i t ht
        split
        · exact htype parent t hparenthas ht
        · exact .pure nofun
      · exact .pure nofun
    case h_2 =>
      split
      · rename_i r hr
        obtain ⟨m, hm, hreturn⟩ := Option.bind_eq_some_iff.mp hr
        split
        · rename_i t ht
          exact htype r t (has_returnType (hp.sown.has_parent hparenthas hm).1 hreturn) ht
        · refine .pure fun t ht => ?_
          cases ht
          exact .unknown
      · exact .pure nofun
    case h_3 =>
      split
      · exact h .argument a parent 0 hparenthas ha (by omega)
      · exact .pure nofun
    case h_4 =>
      split
      · exact .pure nofun
      · rename_i owner howner
        have hownerhas := (hp.sown.has_parent hparenthas howner).1
        split
        · exact .pure nofun
        · split
          · split
            · exact h .argument a owner _ hownerhas ha (by omega)
            · exact .pure nofun
          · simp only
            split
            · rename_i v hv
              obtain ⟨hvhas, hvtype⟩ := hp.memberVariable hownerhas (mem_of_find?_eq_some hv)
              exact Keeps.asked (h .declaration a v hvhas hvtype (ha.allows v) (by omega)) fun t ht => ht.1
            · exact .pure nofun
          · exact .pure nofun
    case h_5 | h_6 | h_7 =>
      split
      · exact hup
      · exact .pure nofun
    case h_8 => exact hup
    case h_9 => exact .pure nofun

theorem Kept.typeOf (h : Kept p fuel) (hq : p.Has q) (ht : p.type? q = some t)
    (ha : a.Clear p ∨ p.IsSimple t ∧ a.Allows p t) (hb : a.budget + 1 ≤ fuel) :
    Keeps (Memo.Sound p a) (p.typeExpressionTypeIn fuel t)
      fun u => u.Over p ∧ (p.IsSimple t → u = p.written t) := by
  have hallows : a.Allows p t := ha.elim (·.allows t) (·.2)
  exact (h .typeExpression a t (hq.part ht) (Forest.part?_mem ht).2 hallows hb).mono
    fun u hu => ⟨hu.1, fun hs => hu.2 (.type hs)⟩

theorem Kept.declaration_succ (hp : p.Grown) (h : Kept p fuel) : Topic.Kept p (fuel + 1) .declaration := by
  intro a n hn ht ha hb
  rw [declarationTypeIn]
  refine Memo.keeps_type hn (ha.not_mem hn) fun b hbudget => ?_
  unfold stride at hbudget
  split
  case h_1 hs =>
    split
    · rename_i t htype
      have hallows : (a.atNode n b).Allows p t := by
        by_cases hl : p.IsLight n
        · exact ha.lighter hn (.type (hl.parameterType hs htype)) (height_lt_parameter hn hs htype) b
        · exact (ha.clear hn hl b).allows t
      refine (h .typeExpression _ t (hn.part htype) (Forest.part?_mem htype).2 hallows (by simp only; omega)).mono
        fun u hu => ⟨hu.1, fun hl => ?_⟩
      rw [hp.written_parameter hn hs hl, htype]
      exact hu.2 (.type (hl.parameterType hs htype))
    · rename_i htype
      refine .pure ⟨.unknown, fun hl => ?_⟩
      rw [hp.written_parameter hn hs hl, htype]
      rfl
  case h_2 v hs =>
    have hl : ¬ p.IsLight n := not_isLight_of_shape (by rw [hs]; rfl)
    split
    · rename_i t htype
      exact (h.typeOf hn htype (.inl (ha.clear hn hl b)) (by simp only; omega)).mono
        fun u hu => ⟨hu.1, fun h => absurd h hl⟩
    · exact .pure ⟨.unknown, fun h => absurd h hl⟩
  case h_3 hs =>
    have hl : ¬ p.IsLight n := not_isLight_of_shape (by rw [hs]; rfl)
    refine .mono (Q := (·.Over p)) ?_ fun t ht => ⟨ht, fun h => absurd h hl⟩
    split
    · rename_i t htype
      exact (h.typeOf hn htype (.inl (ha.clear hn hl b)) (by simp only; omega)).mono fun u hu => hu.1
    · rename_i e _ he
      exact h .expression _ e (hn.part he) (Forest.part?_mem he).2 (ha.clear hn hl b) (by simp only; omega)
    · exact .pure .unknown
  case h_4 isPartial hs =>
    have hclass : n.shape.isClass := by rw [hs]; rfl
    obtain ⟨name, hname⟩ := hn.className hclass
    rw [hname]
    have hparams : ∀ d ∈ p.typeParameters n, Keeps (Memo.Sound p (a.atNode n b)) (p.declarationTypeIn fuel d)
        fun t => t.Over p ∧ t = p.written d := by
      intro d hd
      obtain ⟨hdhas, hdshape⟩ := Has.typeParameter hn hd
      have hdlight : p.IsLight d := .declaration (.inr (.inl hdshape))
      have hdtype : d.shape.isTypeExpression = false := by
        cases hs : d.shape <;> rw [hs] at hdshape <;> cases hdshape
        rfl
      exact (h .declaration _ d hdhas hdtype (ha.lighter hn hdlight (height_lt_class hn hclass hd) b)
        (by simp only; omega)).mono
        fun t ht => ⟨ht.1, ht.2 hdlight⟩
    refine .bind (.mapM hparams) fun args hargs => .pure ⟨.object hn fun t ht => ?_, fun _ => ?_⟩
    · obtain ⟨d, -, hd⟩ := Forest.exists_of_mem hargs.flip ht
      exact hd.1
    · rw [hp.written_class hn hclass hname, eq_map_of_forall₂ (hargs.imp fun _ _ h => h.2)]
  case h_5 v hs =>
    have hparam : n.shape.isTypeParameter := by rw [hs]; rfl
    split
    · rename_i hname
      exact .pure ⟨.unknown, fun _ => by rw [written_typeParameter hparam, hname]; rfl⟩
    · rename_i name hname
      exact .pure ⟨.parameter nofun, fun _ => by rw [written_typeParameter hparam, hname]; rfl⟩
  case h_6 hparameter hvariable hbinding hclass hparam =>
    refine .pure ⟨.unknown, fun hl => ?_⟩
    have himport : n.shape = .importDirective := by
      have hshape := hl.shape
      cases hs : n.shape <;> rw [hs] at ht hshape <;>
        first | rfl | exact (hparameter hs).elim | exact (hclass _ hs).elim | exact (hparam _ hs).elim |
          cases ht <;> done | cases hshape
    rw [written_import himport]

theorem Kept.typeExpression_succ (hp : p.Grown) (h : Kept p fuel) : Topic.Kept p (fuel + 1) .typeExpression := by
  intro a n hn ht ha hb
  rw [typeExpressionTypeIn]
  refine Memo.keeps_type hn (ha.not_mem hn) fun b hbudget => ?_
  unfold stride at hbudget
  split
  case h_1 hs =>
    refine (h .self _ n (fun c hc => ?_) (by simp only; omega)).mono fun t ht => ⟨ht.1, fun _ => ?_⟩
    · obtain ⟨hhas, hclass⟩ := hp.closestClass hn hc
      exact ⟨hhas, ha.lighter hn (.declaration (.inl hclass)) (height_lt_of_declares ht (.inl hclass)) b⟩
    · rw [hp.written_selfType hn hs]
      exact ht.2
  case h_2 hs =>
    -- A light type has light arguments and names something light; otherwise nothing light is open.
    have hargs : ∀ t ∈ p.typeArguments n, Keeps (Memo.Sound p (a.atNode n b)) (p.typeExpressionTypeIn fuel t)
        fun u => u.Over p ∧ (p.IsLight n → u = p.written t) := by
      intro t hmem
      obtain ⟨hthas, httype, -⟩ := hn.typeArgument hmem
      refine (h .typeExpression _ t hthas httype ?_ (by simp only; omega)).mono fun u hu => ⟨hu.1, fun hl => ?_⟩
      · by_cases hl : p.IsLight n
        · exact ha.lighter hn (.type ((hl.isSimple ht).argument hs hmem)) (height_lt_typeArgument hn ht hmem) b
        · exact (ha.clear hn hl b).allows t
      · exact hu.2 (.type ((hl.isSimple ht).argument hs hmem))
    refine .bind (.mapM hargs) fun args hover => ?_
    have hoverArgs : ∀ u ∈ args, u.Over p := fun u hu => by
      obtain ⟨d, -, hd⟩ := Forest.exists_of_mem hover.flip hu
      exact hd.1
    have hwritten (hl : p.IsLight n) : args = (p.typeArguments n).map p.written :=
      eq_map_of_forall₂ (hover.imp fun _ _ h => h.2 hl)
    split
    · rename_i d hd
      obtain ⟨hdhas, hdtype⟩ := hp.not_typeExpression hn hd
      refine .bind (h .declaration _ d hdhas hdtype ?_ (by simp only; omega)) fun t htd =>
        .pure ⟨htd.1.withArguments hoverArgs, fun hl => ?_⟩
      · by_cases hl : p.IsLight n
        · obtain ⟨-, hlight⟩ := (hl.isSimple ht).declares hp hn hs hd
          exact ha.lighter hn (.declaration hlight) (height_lt_of_declares ht hlight) b
        · exact (ha.clear hn hl b).allows d
      · rw [hp.written_typeReference hn hs (hl.isSimple ht), hd, hwritten hl,
          htd.2 (.declaration ((hl.isSimple ht).declares hp hn hs hd).2)]
        rfl
    · rename_i hd
      refine .pure ⟨.unknown, fun hl => ?_⟩
      rw [hp.written_typeReference hn hs (hl.isSimple ht), hd]
      rfl
  case h_3 hself href =>
    cases hs : n.shape <;> rw [hs] at ht <;> cases ht
    · exact (href hs).elim
    · exact (hself hs).elim

theorem Kept.object_succ (h : Kept p fuel) : Topic.Kept p (fuel + 1) .object := by
  intro a c args receiver hc hargs hr ha hb
  rw [objectBehavioursIn, hc.at_]
  refine .bind (h .class_ a c hc (ha.allowsClass c) (by omega)) fun bs hbs => .pure ?_
  refine forall_mem_map.mpr fun b hb => ?_
  exact ((hbs.found.over_ b hb).subst (over_substitution hargs (some c))).bindSelf hr

theorem Kept.plainBehaviours_succ (h : Kept p fuel) : Topic.Kept p (fuel + 1) .plainBehaviours := by
  intro a t ht hplain ha hb
  cases ht with
  | object hc hargs =>
    rw [behavioursIn]
    exact h .object a _ _ _ hc hargs (.object hc hargs) ha (by omega)
  | unknown =>
    rw [behavioursIn]
    · exact .pure nofun
    all_goals nofun
  | _ => exact hplain.elim nofun nofun

theorem Kept.behaviours_succ (hp : p.Grown) (h : Kept p fuel) : Topic.Kept p (fuel + 1) .behaviours := by
  intro a t ht ha hb
  have hstandard (name : String) : Keeps (Memo.Sound p a)
      (p.standardTypeIn fuel name >>= p.behavioursIn fuel) fun bs => ∀ b ∈ bs, b.Over p :=
    .bind (h .standard a name ha (by omega)) fun u hu =>
      h .plainBehaviours a u hu.1 (hu.2 ▸ hp.isPlain_standard name) ha (by omega)
  cases ht with
  | object hc hargs => exact h.plainBehaviours_succ a _ (.object hc hargs) (.inr rfl) ha (by omega)
  | unknown => exact h.plainBehaviours_succ a _ .unknown (.inl rfl) ha (by omega)
  | @self u hu hplain =>
    cases hu with
    | object hc hargs =>
      rw [behavioursIn]
      exact h .object a _ _ _ hc hargs (.self (.object hc hargs) hplain) ha (by omega)
    | unknown =>
      rw [behavioursIn]
      · exact h .plainBehaviours a _ .unknown (.inl rfl) ha (by omega)
      · nofun
    | _ => exact hplain.elim nofun nofun
  | @classObject name c args hc hargs =>
    rw [behavioursIn, hc.at_]
    refine (Keeps.filterMapM (S := fun _ o => ∀ b ∈ o, b.Over p) fun i hi => ?_).mono ?_
    · have hihas := hc.mem_members (mem_filter.mp hi).1
      split
      · exact .pure nofun
      · rename_i q hq
        obtain ⟨hqhas, hqshape⟩ := hihas.pattern? hq
        refine (h .pattern a i _ _ q hihas hqhas hqshape (.classObject hc hargs) (.object hc hargs)
          (fun d _ => ha.allows d) (by omega)).mono ?_
        rintro o ⟨b, rfl, hover, -⟩ b' hb'
        cases hb'
        exact hover
    · rintro bs ⟨os, hos, rfl⟩ b hb
      obtain ⟨o, ho, hob⟩ := mem_filterMap.mp hb
      obtain ⟨i, -, hi⟩ := Forest.exists_of_mem hos.flip ho
      exact hi b hob
  | symbol v =>
    rw [behavioursIn]
    exact hstandard "Symbol"
  | integerLiteral =>
    rw [behavioursIn]
    exact hstandard "Integer"
  | floatLiteral =>
    rw [behavioursIn]
    exact hstandard "Float"
  | parameter | behaviour =>
    rw [behavioursIn]
    · exact .pure nofun
    all_goals nofun

theorem statedPattern?_result {m : Nat} {result : Ty} (h : p.statedPattern? m receiver result q = some b) (u : Ty) :
    p.statedPattern? m receiver u q = some { b with result := u } := by
  unfold statedPattern? at h ⊢
  split at h
  case h_3 hshape =>
    rw [Option.ite_none_left_eq_some] at h
    obtain ⟨hne, h⟩ := h
    cases h
    simp only [if_neg hne]
  case h_4 => cases h
  all_goals
    rename_i hshape
    obtain ⟨name, hname, rfl⟩ := Option.map_eq_some_iff.mp h
    simp only [hname, Option.map_some]

theorem Kept.pattern_succ (h : Kept p fuel) : Topic.Kept p (fuel + 1) .pattern := by
  intro a m receiver result q hm hq hs hr hres ha hb
  have hparam (d : Node) (hd : d ∈ p.patternParameters q) :
      Keeps (Memo.Sound p a) (p.declarationTypeIn fuel d) fun t =>
        t.Over p ∧ (p.IsLightPattern q → t = p.written d) := by
    obtain ⟨hdhas, hdshape⟩ := hq.patternParameter hd
    exact (h .declaration a d hdhas (by rw [hdshape]; rfl) (ha d hd) (by omega)).mono
      fun t ht => ⟨ht.1, fun hl => ht.2 (hl d hd)⟩
  obtain ⟨s, hselector, -, -⟩ := hq.pattern hs
  have hsel : p.selector? q = some s := by simpa [Forest.patternSelector?, hs] using hselector
  rw [patternBehaviourIn]
  split
  case h_1 hshape =>
    rw [hsel]
    exact .pure ⟨_, rfl, ⟨⟨m, hm, rfl⟩, hr, forall_mem_nil _, hres⟩, rfl, hselector, fun _ => by
      simp [statedPattern?, hshape, hsel]⟩
  case h_2 hshape =>
    rw [hsel]
    have hone (t : Ty) (ht : t.Over p) (hw : p.IsLightPattern q →
        t = (p.part? (· == .parameter) q).elim .unknown p.written) :
        ∃ b, some (Behaviour.mk m.id receiver .binary [s] [t] result) = some b ∧
          b.Over p ∧ b.method = m.id ∧ p.patternSelector? q = some b.selector ∧
          (p.IsLightPattern q → p.statedPattern? m.id receiver result q = some b) :=
      ⟨_, rfl, ⟨⟨m, hm, rfl⟩, hr, by simpa using ht, hres⟩, rfl, hselector, fun hl => by
        simp [statedPattern?, hshape, hsel, hw hl]⟩
    simp only
    split
    · rename_i d hd
      have hmem : d ∈ p.patternParameters q := by
        rw [Forest.patternParameters, hshape]
        simp only
        rw [hd]
        exact mem_singleton_self d
      refine .bind (hparam d hmem) fun t ht => .pure (hone t ht.1 fun hl => ?_)
      rw [hd]
      exact ht.2 hl
    · rename_i hd
      exact Keeps.pure (hone .unknown .unknown fun _ => by rw [hd]; rfl)
  case h_3 hshape =>
    obtain ⟨hne, hkeyword⟩ := hq.keywordPattern hshape
    have hmem (e : Node × Node) (he : e ∈ p.keywordValues q) : e.2 ∈ p.patternParameters q := by
      rw [Forest.patternParameters, hshape]
      exact mem_map_of_mem he
    refine .bind (.mapM fun e he => hparam e.2 (hmem e he)) fun args hover => ?_
    have hkeywords : ((p.keywordValues q).filterMap fun e => p.nameOf? e.1).isEmpty = false := by
      simpa using hne
    rw [if_neg (by simp [hkeywords])]
    refine .pure ⟨_, rfl, ⟨⟨m, hm, rfl⟩, hr, fun t ht => ?_, hres⟩, rfl, ?_, fun hl => ?_⟩
    · obtain ⟨e, -, he⟩ := Forest.exists_of_mem hover.flip ht
      exact he.1
    · rw [Forest.patternSelector?, if_pos hs, Forest.selector?, hshape]
      exact hkeyword
    · have hargs : args = (p.keywordValues q).map fun e => p.written e.2 :=
        eq_map_of_forall₂ (hover.imp fun _ _ ht => ht.2 hl)
      simp only [statedPattern?, hshape, hargs]
      rw [if_neg (by simp [hkeywords])]
  case h_4 h1 h2 h3 =>
    cases hshape : q.shape <;> rw [hshape] at hs <;> cases hs
    · exact (h1 hshape).elim
    · exact (h2 hshape).elim
    · exact (h3 hshape).elim

theorem Kept.method_succ (h : Kept p fuel) : Topic.Kept p (fuel + 1) .method := by
  intro a m receiver hm hs hr ha hb
  obtain ⟨q, hq⟩ := hm.methodPattern hs
  obtain ⟨hqhas, hqshape⟩ := hm.pattern? hq
  have hmethod {s : String} (hsel : p.patternSelector? q = some s) : p.methodSelector? m = some s := by
    rw [Forest.methodSelector?, if_pos hs, hq]
    exact hsel
  rw [methodBehaviourIn, hq]
  refine .bind (h .pattern a m receiver .unknown q hm hqhas hqshape hr .unknown (fun d hd => ?_) (by omega)) ?_
  · rcases ha with ha | ⟨he, ha⟩
    · exact ha.allows d
    · refine ha d (he.parameters d ?_)
      rw [Forest.parameters, hq]
      exact hd
  · rintro o ⟨b, rfl, hover, hid, hsel, hpattern⟩
    have hpattern (he : p.IsExplicit m) : p.statedPattern? m.id receiver .unknown q = some b := by
      refine hpattern fun d hd => he.parameters d ?_
      rw [Forest.parameters, hq]
      exact hd
    simp only
    split
    · rename_i r hreturn
      split
      · rename_i t ht
        refine .bind (h.typeOf (has_returnType hm hreturn) ht ?_ (by omega)) fun u hu =>
          .pure ⟨_, rfl, ⟨hover.method, hover.receiver, hover.arguments, hu.1⟩, hid, hmethod hsel, fun he => ?_⟩
        · refine ha.imp_right ?_
          rintro ⟨he, ha⟩
          have hsimple := he.result r t hreturn ht
          exact ⟨hsimple, ha t (.type hsimple)⟩
        · rw [stated?, hq, hreturn, Option.bind_some, Option.bind_some, ht, hu.2 (he.result r t hreturn ht)]
          exact statedPattern?_result (hpattern he) _
      · rename_i ht
        refine .pure ⟨b, rfl, hover, hid, hmethod hsel, fun he => ?_⟩
        rw [stated?, hq, hreturn, Option.bind_some, Option.bind_some, ht]
        exact hpattern he
    · rename_i e hreturn hbody
      rcases ha with ha | ⟨he, -⟩
      · have hehas := has_body hm hbody
        refine .bind (h .expression a e hehas.1 hehas.2 ha (by omega)) fun u hu =>
          .pure ⟨_, rfl, ⟨hover.method, hover.receiver, hover.arguments, hu⟩, hid, hmethod hsel, fun he => ?_⟩
        rw [he.body hreturn] at hbody
        cases hbody
      · rw [he.body hreturn] at hbody
        cases hbody
    · rename_i hreturn _
      refine .pure ⟨b, rfl, hover, hid, hmethod hsel, fun he => ?_⟩
      rw [stated?, hq, hreturn]
      exact hpattern he

/-! ### The behaviours of a class -/

theorem members_of_not_class (h : c.shape.isClass = false) : p.members c = [] := by
  rw [Forest.members, if_neg (by rw [h]; nofun)]

theorem closestClass_child (hn : p.Has n) (hc : c ∈ p.children n) (hs : c.shape.isClass = false) :
    p.closestClass? c = p.closestClass? n := by
  rw [Forest.closestClass?, Forest.closest?, hn.upwards_child hc, find?_cons_of_neg (by simp [hs])]
  rfl

theorem Grown.closestClass_member (hp : p.Grown) (hc : p.Has c) (hm : m ∈ p.members c)
    (hs : m.shape.isClass = false) : p.closestClass? m = some c := by
  unfold Forest.members at hm
  split at hm
  · rename_i hclass
    cases hb : p.part? (· == .classBody) c with
    | none =>
      rw [hb] at hm
      cases hm
    | some body =>
      rw [hb] at hm
      obtain ⟨hbmem, hbody⟩ := Forest.part?_mem hb
      have hbclass : body.shape.isClass = false := by
        rw [eq_of_beq hbody]
        rfl
      rw [closestClass_child (hc.child hbmem).1 hm hs, closestClass_child hc hbmem hbclass, Forest.closestClass?,
        Forest.closest?, hp.sown.upwards_cons hc]
      exact find?_cons_of_pos hclass
  · cases hm

theorem Grown.closestClass_method (hp : p.Grown) (hc : p.Has c) (hm : m ∈ p.methods c) :
    p.closestClass? m = some c := by
  obtain ⟨hmem, hs⟩ := mem_filter.mp hm
  refine hp.closestClass_member hc hmem ?_
  cases h : m.shape <;> rw [h] at hs <;> first | rfl | cases hs

theorem Grown.closestClass_superExpression (hp : p.Grown) (hc : p.Has c)
    (ht : t ∈ p.superExpressions c) : p.closestClass? t = some c := by
  obtain ⟨d, hd, hpart⟩ := mem_filterMap.mp ht
  obtain ⟨hdmem, hdshape⟩ := mem_filter.mp hd
  obtain ⟨htmem, htype⟩ := Forest.part?_mem hpart
  have htclass : t.shape.isClass = false := by
    cases hs : t.shape <;> rw [hs] at htype <;> first | rfl | cases htype
  have hdclass : d.shape.isClass = false := by
    rw [eq_of_beq hdshape]
    rfl
  rw [closestClass_child (hc.mem_members hdmem) htmem htclass]
  exact hp.closestClass_member hc hdmem hdclass

theorem Grown.has_of_is (hp : p.Grown) (hc : p.Has c) (h : p.Is c k) : p.Has k := by
  obtain ⟨t, ht, hd⟩ := mem_filterMap.mp (mem_filter.mp h).1
  exact (hp.meaning (hc.superExpression ht).1 hd).1

theorem is_of_denoted (hc : p.Has c) (ht : t ∈ p.superExpressions c) (hd : p.denoted? t = some k) : p.Is c k := by
  rw [Is, superClasses, mem_filter, mem_filterMap]
  have htype := (hc.superExpression ht).2
  cases hs : t.shape <;> rw [hs] at htype <;> cases htype
  · rw [denoted?, hs] at hd
    obtain ⟨hd, hk⟩ := Option.filter_eq_some_iff.mp hd
    exact ⟨⟨t, ht, hd⟩, hk⟩
  · rw [denoted?, hs] at hd
    cases hd

/-- A class that is not above itself says with a name that it is another. -/
theorem Grown.is_iff (hp : p.Grown) (hc : p.Has c) (hcycle : ¬ Relation.TransGen p.Is c c) :
    p.Is c k ↔ ∃ t ∈ p.superExpressions c, p.denoted? t = some k := by
  refine ⟨fun h => ?_, fun ⟨t, ht, hd⟩ => is_of_denoted hc ht hd⟩
  obtain ⟨hmem, hk⟩ := mem_filter.mp h
  obtain ⟨t, ht, hd⟩ := mem_filterMap.mp hmem
  refine ⟨t, ht, ?_⟩
  have htype := (hc.superExpression ht).2
  cases hs : t.shape <;> rw [hs] at htype <;> cases htype
  · rw [denoted?, hs]
    exact Option.filter_eq_some_iff.mpr ⟨hd, hk⟩
  · have hself : p.declaration? t .type = some c := by
      rw [declaration?, hs]
      exact hp.closestClass_superExpression hc ht
    obtain rfl := Option.some.inj (hself.symm.trans hd)
    exact absurd (Relation.TransGen.single h) hcycle

theorem understands_iff : p.Understands c s ↔ (∃ m ∈ p.methods c, p.methodSelector? m = some s) ∨
      ∃ k, p.Is c k ∧ p.Understands k s := by
  constructor
  · rintro ⟨k, hk, hm⟩
    rcases Relation.ReflTransGen.cases_head hk with rfl | ⟨d, hd, hk⟩
    · exact .inl hm
    · exact .inr ⟨d, hd, k, hk, hm⟩
  · rintro (hm | ⟨d, hd, k, hk, hm⟩)
    · exact ⟨c, .refl, hm⟩
    · exact ⟨k, .head hd hk, hm⟩

def OwnBehaviours (p : Program) (c : Node) (bs : List Behaviour) : Prop :=
  List.Forall₂ (fun m b => b.Over p ∧ b.method = m.id ∧ p.methodSelector? m = some b.selector ∧
    (p.IsExplicit m → p.stated? m (p.written c) = some b)) (p.methods c) bs

theorem OwnBehaviours.found (h : p.OwnBehaviours c bs) (hc : p.Has c) : p.Found (addBehaviours [] bs) where
  over_ := fun b hb => by
    obtain ⟨m, -, hm⟩ := Forest.exists_of_mem h.flip ((mem_addBehaviours hb).elim nofun id)
    exact hm.1
  stems := fun b hb => by
    obtain ⟨m, hmem, hm⟩ := Forest.exists_of_mem h.flip ((mem_addBehaviours hb).elim nofun id)
    exact ⟨c, m, hc, hmem, hm.2.1, hm.2.2.1⟩
  nodup := nodup_addBehaviours (by simp) bs

theorem OwnBehaviours.ownFirst (h : p.OwnBehaviours c bs) : p.OwnFirst c (addBehaviours [] bs) := by
  intro s m hm
  obtain ⟨b, hfind, hid⟩ : ∃ b, bs.find? (fun b => b.selector == s) = some b ∧ b.method = m.id := by
    unfold OwnBehaviours at h
    generalize p.methods c = ms at h hm
    induction h with
    | nil => cases hm
    | @cons k b ms bs hk _ ih =>
      rw [find?_cons] at hm ⊢
      have hsame : (p.methodSelector? k == some s) = (b.selector == s) := by
        rw [hk.2.2.1]
        rfl
      rw [hsame] at hm
      split at hm
      · cases hm
        exact ⟨b, rfl, hk.2.1⟩
      · exact ih hm
  have hs := find?_some hfind
  exact ⟨b, mem_addBehaviours_of_find? nofun hfind, eq_of_beq hs, hid⟩

theorem OwnBehaviours.selectors (h : p.OwnBehaviours c bs) (s : String) :
    (∃ b ∈ addBehaviours [] bs, b.selector = s) ↔ ∃ m ∈ p.methods c, p.methodSelector? m = some s := by
  rw [selector_mem_addBehaviours]
  constructor
  · rintro (⟨b, hb, -⟩ | ⟨b, hb, rfl⟩)
    · cases hb
    · obtain ⟨m, hm, -, -, hs, -⟩ := Forest.exists_of_mem h.flip hb
      exact ⟨m, hm, hs⟩
  · rintro ⟨m, hm, hs⟩
    obtain ⟨b, hb, -, -, hsel, -⟩ := Forest.exists_of_mem h hm
    exact .inr ⟨b, hb, Option.some.inj (hsel.symm.trans hs)⟩

theorem OwnBehaviours.stated (h : p.OwnBehaviours c bs) (hd : ∀ m ∈ p.methods c, p.IsExplicit m) :
    (p.methods c).filterMap (fun m => p.stated? m (p.written c)) = bs := by
  unfold OwnBehaviours at h
  generalize p.methods c = ms at h hd
  induction h with
  | nil => rfl
  | cons hb _ ih =>
    rw [filterMap_cons, hb.2.2.2 (hd _ mem_cons_self), ih fun m hm => hd m (.tail _ hm)]

theorem Found.inherit {found : List Behaviour} (h : p.Found found) (hi : p.Found inherited)
    {m : Ty.Substitution} (hm : ∀ e ∈ m, e.2.Over p) : p.Found (addBehaviours found (inherited.map (·.subst m))) where
  over_ := fun b hb => by
    rcases mem_addBehaviours hb with hb | hb
    · exact h.over_ b hb
    · obtain ⟨b', hb', rfl⟩ := mem_map.mp hb
      exact (hi.over_ b' hb').subst hm
  stems := fun b hb => by
    rcases mem_addBehaviours hb with hb | hb
    · exact h.stems b hb
    · obtain ⟨b', hb', rfl⟩ := mem_map.mp hb
      exact hi.stems b' hb'
  nodup := nodup_addBehaviours h.nodup _

/-- What has been found when some of the types a class says it is have been looked at. -/
structure Gathered (p : Program) (c : Node) (done : List Node) (bs : List Behaviour) : Prop where
  found : p.Found bs
  within : p.NamesClasses c → p.Within c bs
  own : p.OwnFirst c bs
  selectors : p.IsDeclared c → ∀ s, (∃ b ∈ bs, b.selector = s) ↔
    (∃ m ∈ p.methods c, p.methodSelector? m = some s) ∨
      ∃ t ∈ done, ∃ k, p.denoted? t = some k ∧ p.Understands k s
  stated : p.IsDeclared c → ∃ k, ∀ n, k ≤ n → p.gather (p.repertoireIn n) c done = bs

theorem gather_concat (f : Node → List Behaviour) (c t : Node) (done : List Node) : p.gather f c (done ++ [t]) =
      match p.written t with
      | .object _ id args =>
        match p.node? id with
        | some s => addBehaviours (p.gather f c done) ((f s).map (·.subst (p.substitution (some s) args)))
        | none => p.gather f c done
      | _ => p.gather f c done := by
  rw [gather, foldl_append]
  rfl

theorem Gathered.skip {found : List Behaviour}
    (h : p.Gathered c done found) (ht : p.IsDeclared c → p.denoted? t = none ∧ (p.written t).classId? = none) :
    p.Gathered c (done ++ [t]) found := by
  refine ⟨h.found, h.within, h.own, fun hd s => ?_, fun hd => ?_⟩
  · rw [h.selectors hd s]
    simp [(ht hd).1]
  · obtain ⟨k, hk⟩ := h.stated hd
    refine ⟨k, fun n hn => ?_⟩
    rw [gather_concat, hk n hn]
    have hnone := (ht hd).2
    split
    · rename_i heq
      rw [heq] at hnone
      cases hnone
    · rfl

theorem Gathered.inherit {found : List Behaviour}
    {args : List Ty} (name : String) (hk : p.Has k) (h : p.Gathered c done found) (hi : p.Found inherited)
    (hargs : ∀ t ∈ args, t.Over p) (hw : p.NamesClasses c → p.Is c k ∧ p.Within k inherited)
    (hfull : p.IsDeclared c → p.denoted? t = some k ∧ p.written t = .object name k.id args ∧
      p.Full k inherited ∧ p.IsRepertoire k inherited) : p.Gathered c (done ++ [t])
      (addBehaviours found (inherited.map (·.subst (p.substitution (some k) args)))) where
  found := h.found.inherit hi (over_substitution hargs _)
  within := fun hn b hb => by
    rcases mem_addBehaviours hb with hb | hb
    · exact h.within hn b hb
    · obtain ⟨b', hb', rfl⟩ := mem_map.mp hb
      exact understands_iff.mpr (.inr ⟨k, (hw hn).1, (hw hn).2 b' hb'⟩)
  own := fun s n hn => by
    obtain ⟨b, hb, hs⟩ := h.own s n hn
    exact ⟨b, mem_addBehaviours_left hb _, hs⟩
  selectors := fun hd s => by
    obtain ⟨hdenoted, -, hfull, -⟩ := hfull hd
    have hmap : (∃ b ∈ inherited.map (·.subst (p.substitution (some k) args)), b.selector = s) ↔
        p.Understands k s := by
      rw [← hfull s]
      simp
    rw [selector_mem_addBehaviours, hmap, h.selectors hd s, or_assoc]
    simp [hdenoted, or_and_right, exists_or]
  stated := fun hd => by
    obtain ⟨-, hwritten, -, i, hi⟩ := hfull hd
    obtain ⟨j, hj⟩ := h.stated hd
    refine ⟨max i j, fun n hn => ?_⟩
    rw [gather_concat, hj n (by omega), hwritten]
    simp only [hk.at_, hi n (by omega)]

theorem Kept.class_succ (hp : p.Grown) (h : Kept p fuel) : Topic.Kept p (fuel + 1) .class_ := by
  intro a c hc ha hb
  rw [classBehavioursIn]
  split
  · rename_i hclass
    have hmembers := members_of_not_class (p := p) (by simpa using hclass)
    have hmethods : p.methods c = [] := by rw [Forest.methods, hmembers]; rfl
    have hsupers : p.superExpressions c = [] := by rw [Forest.superExpressions, hmembers]; rfl
    refine .pure ⟨⟨nofun, nofun, .nil⟩, fun _ => nofun, fun _ s m hm => ?_, fun _ _ => ⟨fun s => ?_, 0, ?_⟩⟩
    · rw [hmethods] at hm
      cases hm
    · rw [understands_iff, hmethods]
      simp [Is, superClasses, hsupers]
    · rintro (_ | n) -
      · rfl
      · rw [repertoireIn, hsupers, gather, hmethods]
        rfl
  · rename_i hclass
    have hclass : c.shape.isClass := by simpa using hclass
    refine Memo.keeps_classBehaviours hc fun b hbudget => ?_
    unfold stride at hbudget
    have hsize := hc.lt_size
    -- Either all that is asked here is light, or nothing light is open.
    have hlight (n : Node) (hl : p.IsLight n) : (a.atClass c b).Allows p n :=
      ⟨fun k hk hlk hmem => absurd hmem (ha.nodes k hk hlk), fun _ _ _ _ => hl⟩
    have hclear (hd : ¬ p.IsDeclared c) : (a.atClass c b).Clear p := ha.clear hc hd b
    refine .bind (h .declaration _ c hc (isTypeExpression_of_isClass hclass)
      (hlight c (.declaration (.inl hclass))) (by simp only; omega)) fun declared hdeclared => ?_
    have hmethod : ∀ m ∈ p.methods c, Keeps (Memo.Sound p (a.atClass c b))
        (p.methodBehaviourIn fuel m declared) fun o => ∃ b, o = some b ∧ b.Over p ∧ b.method = m.id ∧
          p.methodSelector? m = some b.selector ∧
          (p.IsExplicit m → p.stated? m (p.written c) = some b) := by
      intro m hm
      obtain ⟨hmhas, hmshape⟩ := hc.mem_methods hm
      rw [← hdeclared.2 (.declaration (.inl hclass))]
      refine h .method _ m declared hmhas hmshape hdeclared.1 ?_ (by simp only; omega)
      by_cases hd : p.IsDeclared c
      · exact .inr ⟨hd.methods c .refl m hm, hlight⟩
      · exact .inl (hclear hd)
    refine .bind (.filterMapM hmethod) ?_
    rintro own ⟨os, hos, rfl⟩
    have hown : p.OwnBehaviours c (os.filterMap id) := by
      unfold OwnBehaviours
      generalize p.methods c = ms at hos
      induction hos with
      | nil => exact .nil
      | cons ho _ ih =>
        obtain ⟨b, rfl, hb⟩ := ho
        exact .cons hb ih
    have hstart : p.Gathered c [] (addBehaviours [] (os.filterMap id)) :=
      ⟨hown.found hc, fun _ b hb => understands_iff.mpr (.inl ((hown.selectors _).mp ⟨b, hb, rfl⟩)),
        hown.ownFirst, fun _ s => by rw [hown.selectors s]; simp,
        fun hd => ⟨0, fun n _ => congrArg _ (hown.stated (hd.methods c .refl))⟩⟩
    refine .mono (Keeps.foldlM hstart ?_) fun bs hbs => ⟨hbs.found, hbs.within, hbs.own, fun hd =>
      ⟨fun s => ?_, ?_⟩⟩
    · intro done t found ht hfound
      obtain ⟨hthas, httype⟩ := hc.superExpression ht
      have hallows : (a.atClass c b).Allows p t := by
        by_cases hd : p.IsDeclared c
        · exact hlight t (.type (hd.supers c .refl t ht))
        · exact (hclear hd).allows t
      refine .bind (h .typeExpression _ t hthas httype hallows (by simp only; omega)) fun ty hty => ?_
      have hdenotes (hd : p.NamesClasses c) : ty.classId? = (p.denoted? t).map (·.id) := by
        have hsimple := hd c .refl t ht
        rw [hty.2 (.type hsimple)]
        exact (hsimple.made hp hthas).1
      split
      · rename_i name id args
        cases hty.1 with
        | @object _ k _ hk hargs =>
          rw [hk.at_]
          -- The class that the type is of is the one that is named.
          have hnamed (hd : p.NamesClasses c) : p.denoted? t = some k ∧ p.Is c k := by
            obtain ⟨d, hdenoted, hid⟩ := Option.map_eq_some_iff.mp (hdenotes hd).symm
            have his := is_of_denoted hc ht hdenoted
            rw [hp.has_of_is hc his |>.eq_of_id hk hid] at hdenoted his
            exact ⟨hdenoted, his⟩
          have hallowsClass : (a.atClass c b).AllowsClass p k := by
            by_cases hd : p.IsDeclared c
            · have his := (hnamed hd.supers).2
              exact ha.above hc his (hd.above his) b
            · exact (hclear hd).allowsClass k
          refine .bind (h .class_ _ k hk hallowsClass (by simp only; omega)) fun inherited hinherited => ?_
          refine .pure (hfound.inherit name hk hinherited.found hargs (fun hn => ?_) fun hd => ?_)
          · have his := (hnamed hn).2
            exact ⟨his, hinherited.within fun i hi => hn i (.head his hi)⟩
          · obtain ⟨hdenoted, his⟩ := hnamed hd.supers
            exact ⟨hdenoted, (hty.2 (.type (hd.supers c .refl t ht))).symm,
              hinherited.full (hallowsClass.not_mem hk (hd.above his)) (hd.above his)⟩
      · rename_i hnot
        refine .pure (hfound.skip fun hd => ?_)
        have hnone : ty.classId? = none := by
          cases ty with
          | object name id args => exact absurd rfl (hnot name id args)
          | _ => rfl
        rw [← hty.2 (.type (hd.supers c .refl t ht))]
        refine ⟨?_, hnone⟩
        rw [hdenotes hd.supers] at hnone
        exact Option.map_eq_none_iff.mp hnone
    · rw [nil_append] at hbs
      rw [hbs.selectors hd s, understands_iff]
      refine or_congr Iff.rfl ⟨?_, ?_⟩
      · rintro ⟨t, ht, k, hk, hs⟩
        exact ⟨k, (hp.is_iff hc (hd.acyclic c .refl)).mpr ⟨t, ht, hk⟩, hs⟩
      · rintro ⟨k, hk, hs⟩
        obtain ⟨t, ht, hdenoted⟩ := (hp.is_iff hc (hd.acyclic c .refl)).mp hk
        exact ⟨t, ht, k, hdenoted, hs⟩
    · obtain ⟨k, hk⟩ := hbs.stated hd
      refine ⟨k + 1, fun n hn => ?_⟩
      obtain ⟨n, rfl⟩ := Nat.exists_eq_succ_of_ne_zero (show n ≠ 0 by omega)
      exact hk n (by omega)

theorem Grown.kept (hp : p.Grown) (fuel : Nat) : Kept p fuel := by
  induction fuel with
  | zero =>
    intro q
    cases q <;> simp only [Topic.Kept] <;> intros <;> omega
  | succ fuel h =>
    intro q
    cases q with
    | expression => exact h.expression_succ hp
    | self => exact h.self_succ hp
    | standard => exact h.standard_succ hp
    | numeric => exact h.numeric_succ
    | expected => exact h.expected_succ hp
    | argument => exact h.argument_succ
    | declaration => exact h.declaration_succ hp
    | typeExpression => exact h.typeExpression_succ hp
    | plainBehaviours => exact h.plainBehaviours_succ
    | behaviours => exact h.behaviours_succ hp
    | object => exact h.object_succ
    | class_ => exact h.class_succ hp
    | method => exact h.method_succ
    | pattern => exact h.pattern_succ
    | message => exact h.message_succ hp

/-! ### Between questions -/

def idle (p : Program) (base : Memo) : Pending := ⟨base, [], [], 2 * p.nodes.size * p.stride⟩

theorem clear_idle (p : Program) (base : Memo) : (p.idle base).Clear p :=
  ⟨fun _ _ _ => not_mem_nil, fun _ _ _ => not_mem_nil⟩

theorem patience_idle (p : Program) (base : Memo) : (p.idle base).budget + 8 + p.nodes.size ≤ p.patience := by
  show 2 * p.nodes.size * (p.nodes.size + 8) + 8 + p.nodes.size ≤
    16 * (p.nodes.size + 1) * (p.nodes.size + 1)
  generalize p.nodes.size = n
  simp only [Nat.mul_add, Nat.add_mul, Nat.mul_assoc]
  omega

/-- What is remembered between questions, all of what was remembered before included. -/
def Since (p : Program) (base m : Memo) : Prop := m.Sound p (p.idle base)

theorem getElem?_replicate_none {α : Type} {i k : Nat} (a : α) : (Array.replicate k none)[i]? ≠ some (some a) := by
  simp [Array.getElem?_replicate]

theorem since_fresh (p : Program) : p.Since (.fresh p) (.fresh p) where
  types_size := by simp [Memo.fresh]
  behaviours_size := by simp [Memo.fresh]
  extends_ := ⟨fun _ _ h => h, fun _ _ h => h⟩
  budget := by
    refine Nat.mul_le_mul_right _ ?_
    simp only [Memo.unasked, Memo.fresh, Array.countP_replicate, Option.isNone_none, if_true]
    omega
  over_ := fun _ t h => absurd h (getElem?_replicate_none t)
  written := fun _ t _ _ _ h => absurd h (getElem?_replicate_none t)
  found := fun _ bs h => absurd h (getElem?_replicate_none bs)
  within := fun _ bs _ _ h => absurd h (getElem?_replicate_none bs)
  own := fun _ bs _ _ h => absurd h (getElem?_replicate_none bs)
  full := fun _ bs _ _ _ h => absurd h (getElem?_replicate_none bs)

theorem Since.now {m : Memo} (h : p.Since base m) : p.Since m m :=
  { h with extends_ := ⟨fun _ _ h => h, fun _ _ h => h⟩ }

theorem Since.trans {m last : Memo} (h : p.Since base m) (hl : p.Since m last) : p.Since base last :=
  { hl with
    extends_ := ⟨fun i t hi => hl.extends_.types i t (h.extends_.types i t hi),
      fun i bs hi => hl.extends_.behaviours i bs (h.extends_.behaviours i bs hi)⟩ }

section

variable {base : Memo} {n : Node}

theorem keeps_expressionType (hp : p.Grown) (hn : p.Has n) (he : n.shape.isExpression) :
    Keeps (p.Since base) (p.expressionType n) (·.Over p) :=
  hp.kept _ .expression _ n hn he (p.clear_idle base) (by have := p.patience_idle base; omega)

theorem keeps_declarationType (hp : p.Grown) (hn : p.Has n) (ht : n.shape.isTypeExpression = false) :
    Keeps (p.Since base) (p.declarationType n) fun t => t.Over p ∧ (p.IsLight n → t = p.written n) :=
  hp.kept _ .declaration _ n hn ht ((p.clear_idle base).allows n)
    (by have := p.patience_idle base; omega)

theorem keeps_classType (hp : p.Grown) (hn : p.Has n) (hs : n.shape.isClass) :
    Keeps (p.Since base) (p.declarationType n) fun t => ∃ name args, t = .object name n.id args := by
  refine (keeps_declarationType hp hn (isTypeExpression_of_isClass hs)).mono fun t ht => ?_
  have hid : t.classId? = some n.id := ht.2 (.declaration (.inl hs)) ▸ (hp.made_class hn hs).1
  cases t with
  | object name id args =>
    obtain rfl : id = n.id := Option.some.inj hid
    exact ⟨name, args, rfl⟩
  | _ => cases hid

theorem keeps_typeExpressionType (hp : p.Grown) (hn : p.Has n) (ht : n.shape.isTypeExpression) :
    Keeps (p.Since base) (p.typeExpressionType n) fun t => t.Over p ∧ (p.IsLight n → t = p.written n) :=
  hp.kept _ .typeExpression _ n hn ht ((p.clear_idle base).allows n)
    (by have := p.patience_idle base; omega)

theorem keeps_standardType (hp : p.Grown) (name : String) : Keeps (p.Since base) (p.standardType name)
      fun t => t.Over p ∧ t = (p.standard? name).elim .unknown p.written :=
  hp.kept _ .standard _ name (p.clear_idle base) (by have := p.patience_idle base; omega)

theorem keeps_expectedType (hp : p.Grown) (hn : p.Has n) :
    Keeps (p.Since base) (p.expectedType n) fun o => ∀ t ∈ o, t.Over p :=
  hp.kept _ .expected _ n hn (p.clear_idle base)
    (by have := p.patience_idle base; have := hn.lt_size; omega)

theorem keeps_behaviours (hp : p.Grown) {t : Ty} (ht : t.Over p) :
    Keeps (p.Since base) (p.behaviours t) fun bs => ∀ b ∈ bs, b.Over p :=
  hp.kept _ .behaviours _ t ht (p.clear_idle base) (by have := p.patience_idle base; omega)

theorem keeps_messageBehaviour (hp : p.Grown) (hn : p.Has n) :
    Keeps (p.Since base) (p.messageBehaviour n) fun o => ∀ b ∈ o, b.Over p :=
  hp.kept _ .message _ n hn (p.clear_idle base) (by have := p.patience_idle base; omega)

structure IsAnswer (p : Program) (c : Node) (bs : List Behaviour) : Prop where
  found : p.Found bs
  within : p.NamesClasses c → p.Within c bs
  own : p.OwnFirst c bs
  full : p.IsDeclared c → p.Full c bs
  stated : p.IsDeclared c → p.IsRepertoire c bs

/-- The behaviours of a class with arguments are those of the class, as the receiver has them. -/
def applied (p : Program) (c : Node) (name : String) (args : List Ty) (bs : List Behaviour) : List Behaviour :=
  bs.map fun b => (b.subst (p.substitution (some c) args)).bindSelf (.object name c.id args)

theorem behaviours_object (hc : p.node? c.id = some c) (name : String) (args : List Ty) :
    p.behaviours (.object name c.id args) =
      p.applied c name args <$> p.classBehavioursIn (p.patience - 2) c := by
  obtain ⟨k, hk⟩ : ∃ k, p.patience = k + 2 := ⟨p.patience - 2, by have := p.patience_idle default; omega⟩
  rw [behaviours, hk, behavioursIn, objectBehavioursIn, hc]
  rfl

theorem run_behaviours (hp : p.Grown) {m : Memo} (hc : p.Has c) (hclass : c.shape.isClass)
    (hm : p.Since base m) (name : String) (args : List Ty) :
    ∃ bs m', (p.behaviours (.object name c.id args)).run m = (p.applied c name args bs, m') ∧
      p.IsAnswer c bs ∧ p.Since base m' ∧ m'.behaviours[c.id]? = some (some bs) := by
  obtain ⟨k, hk⟩ : ∃ k, p.patience - 2 = k + 1 := ⟨p.patience - 3, by have := p.patience_idle base; omega⟩
  have hkept : Keeps (p.Since base) (p.classBehavioursIn (k + 1) c) (Memo.Flattens p (p.idle base) c) :=
    hp.kept _ .class_ _ c hc ((p.clear_idle base).allowsClass c) (by have := p.patience_idle base; omega)
  obtain ⟨hflat, hsince⟩ := hkept m hm
  refine ⟨((p.classBehavioursIn (k + 1) c).run m).1, ((p.classBehavioursIn (k + 1) c).run m).2,
    by rw [behaviours_object hc.at_, hk]; rfl, ?_, hsince, ?_⟩
  · exact ⟨hflat.found, hflat.within, hflat.own not_mem_nil, fun hd => (hflat.full not_mem_nil hd).1,
      fun hd => (hflat.full not_mem_nil hd).2⟩
  · obtain ⟨work, hwork⟩ : ∃ work, p.classBehavioursIn (k + 1) c = Memo.classBehaviours c work :=
      ⟨_, by rw [classBehavioursIn, if_neg (by simp [hclass])]⟩
    have hlt := hsince.behaviours_size ▸ hc.lt_size
    rw [hwork] at hlt ⊢
    exact Memo.remembers_classBehaviours c work m hlt

theorem run_behaviours_of_remembered {m : Memo} (hc : p.Has c)
    (hclass : c.shape.isClass) (hm : m.behaviours[c.id]? = some (some bs)) (name : String)
    (args : List Ty) : (p.behaviours (.object name c.id args)).run m = (p.applied c name args bs, m) := by
  obtain ⟨k, hk⟩ : ∃ k, p.patience - 2 = k + 1 := ⟨p.patience - 3, by have := p.patience_idle m; omega⟩
  have hrun : (p.classBehavioursIn (k + 1) c).run m = (bs, m) := by
    rw [classBehavioursIn, if_neg (by simp [hclass]), Memo.run_classBehaviours, hm]
    rfl
  rw [behaviours_object hc.at_, hk, StateT.run_map, hrun]
  rfl

theorem find?_selector (hn : (bs.map (·.selector)).Nodup) (hb : b ∈ bs) :
    bs.find? (fun c => c.selector == b.selector) = some b := by
  induction bs with
  | nil => cases hb
  | cons c bs ih =>
    rw [map_cons, nodup_cons] at hn
    rw [find?_cons]
    rcases mem_cons.mp hb with rfl | hb
    · rw [beq_self_eq_true]
    · have hne : (c.selector == b.selector) = false := by
        rw [beq_eq_false_iff_ne]
        exact fun heq => hn.1 (heq ▸ mem_map_of_mem hb)
      rw [hne]
      exact ih hn.2 hb

theorem find?_applied (c : Node) (name : String) (args : List Ty) (bs : List Behaviour) (s : String) :
    (p.applied c name args bs).find? (fun b => b.selector == s) =
      (bs.find? fun b => b.selector == s).map fun b =>
        (b.subst (p.substitution (some c) args)).bindSelf (.object name c.id args) := by
  rw [applied, find?_map]
  rfl

end

end Program

end Parlance
