import Parlance.Proofs.Lowered
import Parlance.Proofs.NameOrder
/-!
The code of whole programs: declarations, members and expressions, under a contract in which selectors say how
many values a method finds.
-/
namespace Parlance.Lowering

open List

variable {sel : String} {c : List Instruction} {C : Contract} {f g : Frame} {d i m n : Node}
  {cs : List (List Instruction)}

open Machine (Does Ends Climbs Contract)

variable {p : Program}

/-! ### The contract of a program -/

def Distinct (p : Program) : Prop :=
  ∀ a ∈ p.selectors, ∀ b ∈ p.selectors, hashOf a = hashOf b → a = b

def arityOf (p : Program) (hash : UInt64) : Nat :=
  ((p.selectors.find? (hashOf · == hash)).map Selector.arity).getD 0

theorem arityOf_hash (hd : Distinct p) (h : sel ∈ p.selectors) : arityOf p (hashOf sel) = Selector.arity sel := by
  unfold arityOf
  cases hf : p.selectors.find? (hashOf · == hashOf sel) with
  | none => exact absurd (find?_eq_none.mp hf sel h) (by simp)
  | some other =>
    have hhash : hashOf other = hashOf sel := by simpa using find?_some hf
    rw [hd other (mem_of_find?_eq_some hf) sel h hhash]
    rfl

def memberFrame (p : Program) (m : Node) : Frame := .self :: (p.parameters m).map fun d => .value d.id

def assigned (p : Program) (i : Node) : Part := .all ((p.assignments i).reverse.map (.value ·.value))

/-- The code of a member that answers to a selector. -/
inductive Answers (p : Program) : String → List Instruction → Prop where
  | body {m e sel c g} {n : UInt16} (hm : p.Has m) (hsel : p.methodSelector? m = some sel) (he : p.body? m = some e)
    (hc : Lowered p (.value e) (memberFrame p m) c g) (hn : n.toNat = Selector.arity sel + 1) :
    Answers p sel (c ++ [.return_ n])
  | native {sel : String} (hsel : sel ∈ p.selectors) (native : Native) (har : Selector.arity sel = 1) :
    Answers p sel [.callNative native, .return_ 0]
  | unimplemented {sel : String} (hsel : sel ∈ p.selectors) (name : String) : Answers p sel (unimplemented name)
  | initializer {d i sel values g} {n : UInt16} (hd : p.Has d) (hs : d.shape = .classNode false) (hi : p.Has i)
      (hsel : p.initializerSelector? i = some sel) (hvalues : Lowered p (assigned p i) (memberFrame p i) values g)
      (hn : n.toNat = Selector.arity sel + 1) :
    Answers p sel (values ++ .loadObject (handle d) ::
      ((p.assignments i).map fun a => callFrom (a.name ++ ":") a.keyword) ++ [.return_ n])

inductive Suspended (p : Program) : Nat → List Instruction → Prop where
  | mk {n : Node} {c : List Instruction} {g : Frame} {k : UInt16} (hin : (Part.value n).In p)
    (hn : isCompound n.shape) (hk : k.toNat = (captured p n).length)
    (hc : Lowered p (.value n) (captured p n).reverse c g) :
    Suspended p (captured p n).length (c ++ [.returnLazy k])

def contract (p : Program) : Contract where
  arity := arityOf p
  method hash code := ∃ sel, hashOf sel = hash ∧ Answers p sel code
  lazy := Suspended p

theorem Answers.mem_selectors (hp : p.Grown) (h : Answers p sel c) : sel ∈ p.selectors := by
  cases h with
  | body hm hsel =>
    obtain ⟨-, -, q, hq, hs⟩ := hm.member (.inl hsel)
    exact hp.sown.mem_selectors hq (Forest.mem_selectorsAt hs)
  | native hsel => exact hsel
  | unimplemented hsel => exact hsel
  | initializer hd hs hi hsel =>
    obtain ⟨-, -, q, hq, hs⟩ := hi.member (.inr hsel)
    exact hp.sown.mem_selectors hq (Forest.mem_selectorsAt hs)

theorem does_call (hd : Distinct p) (h : sel ∈ p.selectors) (n : Node) (height : Nat) :
    Does (contract p) (callFrom sel n) (Selector.arity sel + 1 + height) (height + 1) := by
  rw [← arityOf_hash hd h]
  exact .callMethod _ _ _ _ height

theorem climbs_result {i : Instruction} {h below : Nat} (r : Slot)
    (hi : Does C i h (f.length + below + 1)) : Climbs C h [i] ((r :: f).length + below) := by
  rw [length_cons, Nat.add_right_comm]
  exact .cons hi (.nil _)

theorem climbs_drop (r s r' : Slot) (below : Nat) :
    Climbs C ((r :: s :: f).length + below) [.dropLocal 1] ((r' :: f).length + below) := by
  refine climbs_result r' ?_
  rw [length_cons, length_cons, Nat.add_right_comm, Nat.add_right_comm f.length]
  exact .dropLocal (Nat.le_add_left 1 _)

theorem message_selector (hp : p.Grown) (hm : p.Has m) (hs : m.shape.isMessage) (hsel : p.selector? m = some sel) :
    sel ∈ p.selectors ∧ Selector.arity sel = (p.arguments m).length := by
  obtain ⟨s, hsel', har⟩ := hm.message hs
  obtain rfl := Option.some.inj (hsel.symm.trans hsel')
  exact ⟨hp.sown.mem_selectors hm (Forest.mem_selectorsAt hsel), har⟩

theorem does_message (hp : p.Grown) (hd : Distinct p)
    {before : List Instruction} (hm : p.Has m) (hs : m.shape.isMessage)
    (hsel : p.selector? m = some sel) (hargs : Lowered p (sent p m) f before g) (r : Slot) (below : Nat) :
    Does (contract p) (callFrom sel m) ((r :: g).length + below) (f.length + below + 1) := by
  obtain ⟨hmem, har⟩ := message_selector hp hm hs hsel
  obtain ⟨rs, hg, hlen⟩ := grows_sent (hargs.grows (in_sent hm))
  have hheight : (r :: g).length + below = Selector.arity sel + 1 + (f.length + below) := by
    rw [hg, har]
    simp [hlen]
    omega
  rw [hheight]
  exact does_call hd hmem m _

theorem variable_selector (hp : p.Grown) {name : String} (hd : p.Has d)
    (hs : d.shape.isVariable) (hname : p.nameOf? d = some name) :
    Selector.isName name ∧ name ∈ p.selectors ∧ name ++ ":" ∈ p.selectors := by
  obtain ⟨v, hv⟩ : ∃ v, d.shape = .variableNode v := by
    cases h : d.shape <;> rw [h] at hs <;> cases hs
    exact ⟨_, rfl⟩
  have hat : p.selectorsAt d = [name, name ++ ":"] := by simp [Forest.selectorsAt, hv, hname]
  refine ⟨hd.isName_nameOf (by simp [Forest.symbol?, hv]) hname, ?_, ?_⟩
  · exact hp.sown.mem_selectors hd (by rw [hat]; simp)
  · exact hp.sown.mem_selectors hd (by rw [hat]; simp)

/-- Whatever lies below, code makes the stack as much higher as the frame. -/
theorem Lowered.climbs (hp : p.Grown) (hd : Distinct p) {part : Part} (h : Lowered p part f c g)
    (hin : part.In p) (below : Nat) : Climbs (contract p) (f.length + below) c (g.length + below) := by
  induction h generalizing below with
  | @load slot f i hi =>
    have hlt : i.toNat < f.length := List.getElem?_eq_some_iff.mp (getElem?_of_index? hi) |>.choose
    exact climbs_result slot (.loadLocal (by omega))
  | nothing => exact .nil _
  | all h hs ih ihs =>
    cases hin with
    | all hq =>
      have hfirst := ih (hq _ mem_cons_self) below
      exact hfirst.append (ihs (.all fun r hr => hq r (mem_cons_of_mem _ hr)) below)
  | self hn h ih | held hn hd hs h ih =>
    cases h with
    | load hi => exact ih (.load _) below
  | @field n d name f g c hn hdecl hs hname h ih =>
    cases hin with
    | value hhas hexp =>
      obtain ⟨hd', -⟩ := hp.declaration hhas hdecl
      obtain ⟨hisName, hsel, -⟩ := variable_selector hp hd' hs hname
      cases h with
      | load hi =>
        refine (ih (.load _) below).append (climbs_result _ ?_)
        have hdoes := does_call hd hsel n (f.length + below)
        grind
  | fixed f hi => exact climbs_result _ (.load hi.loads _)
  | tuple hn he h ih =>
    cases hin with
    | value hhas hs => exact ih (in_value hhas he).1 below
  | send hn he hm hsel hargs hcode ihargs ihcode =>
    cases hin with
    | value hhas hs =>
      have hmhas := hhas.part hm
      obtain ⟨hine, -⟩ := in_value hhas he
      obtain ⟨r, rfl, -⟩ := grows_value (hcode.grows hine)
      have hfirst := (ihargs (in_sent hmhas) below).append (ihcode hine below)
      have hdoes := does_message hp hd hmhas (Forest.part?_mem hm).2 hsel hargs r below
      exact hfirst.append (climbs_result _ hdoes)
  | cascade hn he hcode hsends ihcode ihsends =>
    cases hin with
    | value hhas hs =>
      have hfirst := (ihcode (in_value hhas he).1 below).append
        (ihsends (.messages fun m hm => mem_cascaded hhas hm) below)
      exact hfirst.append (climbs_drop _ _ _ below)
  | let_ hn hb he hv hbefore hcode ihbefore ihcode =>
    cases hin with
    | value hhas hs =>
      have hfirst := (ihbefore (in_value (hhas.part hb) hv).1 below).append
        (ihcode (in_value hhas he).1 below)
      exact hfirst.append (climbs_drop _ _ _ below)
  | panic hn he hcode ih =>
    cases hin with
    | value hhas hs =>
      obtain ⟨hine, -⟩ := in_value hhas he
      obtain ⟨r, rfl, -⟩ := grows_value (hcode.grows hine)
      refine (ih hine below).append (climbs_result _ ?_)
      rw [length_cons, Nat.add_right_comm]
      exact .panic _ _
  | strict hn h ih =>
    cases hin with
    | argument hhas hs => exact ih (.value hhas hs) below
  | @lazy n k f g g' loads body hn hk hloads hbody ihloads ihbody =>
    cases hin with
    | argument hhas hs =>
      obtain ⟨rs, hg, hlen⟩ := grows_captures (hloads.grows (in_captures n))
      refine (ihloads (in_captures n) below).append (climbs_result _ ?_)
      have hheight : g.length + below = k.toNat + (f.length + below) := by
        rw [hg, hk]
        simp [hlen]
        omega
      rw [hheight]
      refine .loadLazy ?_ _
      rw [hk]
      exact .mk (.value hhas hs) hn hk hbody
  | message hsel hargs hload ihargs ihload =>
    cases hin with
    | messages hms =>
      obtain ⟨hm, hs, -⟩ := hms _ mem_cons_self
      cases hload with
      | load hi =>
        have hfirst := (ihargs (in_sent hm) below).append (ihload (.load _) below)
        exact hfirst.append (climbs_result _ (does_message hp hd hm hs hsel hargs _ below))
  | @messages n m ms f g h first rest hfirst hrest ihfirst ihrest =>
    cases hin with
    | messages hms =>
      have hone : (Part.messages n [m]).In p :=
        .messages fun x hx => hms x (mem_singleton.mp hx ▸ mem_cons_self)
      cases hfirst.grows hone with
      | messages _ hmem =>
        have hrest := ihrest (.messages fun x hx => hms x (mem_cons_of_mem m hx)) below
        have hfirst := ihfirst hone below
        rw [length_cons, Nat.add_right_comm] at hfirst
        exact (hfirst.append (.cons (.dropLocal (Nat.zero_le _)) (.nil _))).append hrest

/-! ### Members -/

theorem in_body {e : Node} (hm : p.Has m) (he : p.body? m = some e) : (Part.value e).In p := by
  unfold Forest.body? at he
  split at he
  · obtain ⟨b, hb, he⟩ := Option.bind_eq_some_iff.mp he
    exact (in_value (hm.part hb) he).1
  · cases he

theorem in_assigned (hi : p.Has i) : (assigned p i).In p := by
  refine .all fun q hq => ?_
  obtain ⟨a, ha, rfl⟩ := mem_map.mp hq
  obtain ⟨hhas, hs, -⟩ := hi.assignment (mem_reverse.mp ha)
  exact .value hhas hs

theorem grows_assigned (h : (assigned p i).Grows p f g) : ∃ rs, g = rs ++ f ∧ rs.length = (p.assignments i).length := by
  obtain ⟨rs, hg, hlen⟩ := grows_row (fun h => (grows_value h).imp fun _ h => h.1) h
  exact ⟨rs, hg, by rw [hlen, length_reverse]⟩

theorem assignment_selector (hp : p.Grown) (hi : p.Has i) {a : Forest.Assignment} (ha : a ∈ p.assignments i) :
    a.name ++ ":" ∈ p.selectors ∧ Selector.arity (a.name ++ ":") = 1 := by
  obtain ⟨v, hv⟩ : ∃ v, i.shape = .initializer v := by
    unfold Forest.assignments at ha
    split at ha
    · rename_i hs
      cases h : i.shape <;> rw [h] at hs <;> cases hs
      exact ⟨_, rfl⟩
    · cases ha
  have hat : a.name ++ ":" ∈ p.selectorsAt i := by
    simp only [Forest.selectorsAt, hv]
    exact mem_map.mpr ⟨a, ha, rfl⟩
  obtain ⟨-, -, hname⟩ := hi.assignment ha
  exact ⟨hp.sown.mem_selectors hi hat, Selector.arity_keyword hname⟩

theorem climbs_setters (hp : p.Grown) (hd : Distinct p) (hi : p.Has i)
    {as : List Forest.Assignment} (has : ∀ a ∈ as, a ∈ p.assignments i) (h : Nat) :
    Climbs (contract p) (as.length + h + 1) (as.map fun a => callFrom (a.name ++ ":") a.keyword) (h + 1) := by
  induction as with
  | nil =>
    rw [length_nil, Nat.zero_add]
    exact .nil _
  | cons a as ih =>
    obtain ⟨hsel, har⟩ := assignment_selector hp hi (has a mem_cons_self)
    have hdoes := does_call hd hsel a.keyword (as.length + h)
    rw [har] at hdoes
    rw [length_cons, show as.length + 1 + h + 1 = 1 + 1 + (as.length + h) by omega]
    exact .cons hdoes (ih fun b hb => has b (mem_cons_of_mem a hb))

theorem length_memberFrame (hm : p.Has m)
    (hsel : p.methodSelector? m = some sel ∨ p.initializerSelector? m = some sel) :
    (memberFrame p m).length = Selector.arity sel + 1 := by
  obtain ⟨-, hlen, -⟩ := hm.member hsel
  simp [memberFrame, hlen]

/-- The code of a member takes its arguments and the receiver, and leaves one value. -/
theorem Answers.ends (hp : p.Grown) (hd : Distinct p)
    (h : Answers p sel c) : Ends (contract p) (Selector.arity sel + 1) c := by
  cases h with
  | @body m e _ c g n hm hsel he hc hn =>
    have hin := in_body hm he
    have hclimbs := hc.climbs hp hd hin 0
    obtain ⟨r, rfl, -⟩ := grows_value (hc.grows hin)
    rw [Nat.add_zero, Nat.add_zero, length_cons, length_memberFrame hm (.inl hsel), ← hn] at hclimbs
    rw [← hn]
    exact hclimbs.ends (.return_ n)
  | native hsel native har =>
    rw [har]
    exact .next (.callNative native 0) (.return_ 0)
  | unimplemented hsel name => exact .next (.load rfl _) (.next (.panic _ 1) .done)
  | @initializer d i _ values g n hd' hs hi hsel hvalues hn =>
    have hin := in_assigned hi
    have hclimbs := hvalues.climbs hp hd hin 0
    obtain ⟨rs, rfl, hlen⟩ := grows_assigned (hvalues.grows hin)
    rw [Nat.add_zero, Nat.add_zero, length_append, hlen, length_memberFrame hi (.inr hsel), ← hn] at hclimbs
    have hsetters := climbs_setters hp hd hi (fun a ha => ha) n.toNat
    rw [← hn, append_assoc]
    exact hclimbs.ends (Climbs.ends (.cons (.load rfl _) hsetters) (.return_ n))

theorem contract_kept (hp : p.Grown) (hd : Distinct p) : (contract p).Kept where
  method := by
    rintro hash code ⟨sel, rfl, h⟩
    have har : (contract p).arity (hashOf sel) = Selector.arity sel := arityOf_hash hd (h.mem_selectors hp)
    rw [har]
    exact h.ends hp hd
  lazy := by
    rintro _ _ ⟨hin, hn, hk, hc⟩
    have hclimbs := hc.climbs hp hd hin 0
    obtain ⟨r, rfl, -⟩ := grows_value (hc.grows hin)
    rw [Nat.add_zero, Nat.add_zero, length_cons, length_reverse, ← hk] at hclimbs
    rw [← hk]
    exact hclimbs.ends (.returnLazy _)

/-! ### Streams -/

/-- A piece of a program that stands for itself. `K` holds of the instructions that declare and inherit. -/
inductive Segment (p : Program) (K : Instruction → Prop) : List Instruction → Prop where
  | declare {i : Instruction} (hi : Machine.declares i) (hK : K i) : Segment p K [i]
  | field {v name} (id : UInt64) (hv : p.Has v) (hs : v.shape.isVariable) (hname : p.nameOf? v = some name) :
    Segment p K [.declareVariable id (Bytes.ofString name)]
  | method {sel body} (name : Bytes) (h : Answers p sel body) :
    Segment p K (.beginMethod (hashOf sel) name :: (body ++ [.endMethod]))
  | binding {e c g} (id : UInt64) (hin : (Part.value e).In p) (hc : Lowered p (.value e) [] c g) :
    Segment p K (c ++ [.storeGlobal id])
  | statement {e c g} (hin : (Part.value e).In p) (hc : Lowered p (.value e) [] c g) : Segment p K c

inductive Stream (p : Program) (K : Instruction → Prop) : List Instruction → Prop where
  | nil : Stream p K []
  | cons {c k} (h : Segment p K c) (hk : Stream p K k) : Stream p K (c ++ k)

variable {K : Instruction → Prop}

theorem Segment.stream (h : Segment p K c) : Stream p K c := by
  rw [← append_nil c]
  exact .cons h .nil

theorem Stream.append {d : List Instruction} (hc : Stream p K c) (hd : Stream p K d) : Stream p K (c ++ d) := by
  induction hc with
  | nil => exact hd
  | cons h _ ih =>
    rw [append_assoc]
    exact .cons h ih

theorem stream_flatten (h : ∀ c ∈ cs, Stream p K c) : Stream p K cs.flatten := by
  induction cs with
  | nil => exact .nil
  | cons c cs ih => exact (h c mem_cons_self).append (ih fun d hd => h d (mem_cons_of_mem c hd))

theorem stream_of_forall {is : List Instruction} (h : ∀ i ∈ is, Segment p K [i]) : Stream p K is := by
  induction is with
  | nil => exact .nil
  | cons i is ih => exact .cons (h i mem_cons_self) (ih fun j hj => h j (mem_cons_of_mem i hj))

theorem forall_of_yields_mapM {α β : Type} {f : α → Gen β} {Q : β → Prop} {as : List α} {bs : List β}
    {s t : State} (hf : ∀ a ∈ as, ∀ {s t : State} {b : β}, Yields (f a) s b t → Q b)
    (h : Yields (as.mapM f) s bs t) : ∀ b ∈ bs, Q b := by
  induction as generalizing s bs with
  | nil => simp_all
  | cons a as ih =>
    obtain ⟨b, u, cs, ha, hs, rfl⟩ := yields_mapM_cons.mp h
    grind

theorem stream_mapM {α : Type} {f : α → Gen (List Instruction)} {as : List α}
    {s t : State} (hf : ∀ a ∈ as, ∀ {s t : State} {c : List Instruction}, Yields (f a) s c t → Stream p K c)
    (h : Yields (as.mapM f) s cs t) : Stream p K cs.flatten :=
  stream_flatten (forall_of_yields_mapM hf h)

variable {s t : State}

theorem classHead_code (h : Yields (classHead p n) s c t) :
    ∃ name marks, (∀ i ∈ marks, ∃ m, i = .markClass m (handle n)) ∧
      c = declare n name :: (marks ++ if p.hasClassObject n then [declareClassObject n name] else []) := by
  grind [classHead, yields_bind, yields_need, yields_pure, Option.map_eq_some_iff]

theorem stream_classHead
    (hK : ∀ i, (∀ r ∈ Machine.refs i, r = .cls (handle n)) → K i) (h : Yields (classHead p n) s c t) :
    Stream p K c := by
  obtain ⟨name, marks, hmarks, rfl⟩ := classHead_code h
  have hdeclare (id : UInt64) (name : Bytes) : Segment p K [.declareClass id name] :=
    .declare rfl (hK _ (by simp [Machine.refs]))
  refine stream_of_forall (forall_mem_cons.mpr ⟨hdeclare _ _, forall_mem_append.mpr ⟨fun i hi => ?_, ?_⟩⟩)
  · obtain ⟨m, rfl⟩ := hmarks i hi
    exact .declare rfl (hK _ (by simp [Machine.refs]))
  · split
    · exact forall_mem_singleton.mpr (hdeclare _ _)
    · exact fun _ h => absurd h not_mem_nil

theorem yields_arity {n : UInt16} (h : Yields (arity p m) s n t) : p.methodArity? m = some n.toNat ∧ s = t := by
  obtain ⟨k, u, hneed, h⟩ := yields_bind.mp h
  obtain ⟨hk, rfl⟩ := yields_need.mp hneed
  split at h
  · rename_i hlt
    obtain ⟨rfl, rfl⟩ := yields_pure.mp h
    grind [UInt16.toNat_ofNat_of_lt']
  · simp at h

theorem native_arity {cls : String} {n : Native} (h : Native.ofMethod? (cls ++ "#" ++ sel) = some n) :
    Selector.arity sel = 1 := by
  have hname : cls ++ "#" ++ sel = n.method := (by simpa using find?_some h : n.method = _).symm
  have hlist : cls.toList ++ '#' :: sel.toList = n.method.toList := by
    rw [← hname]
    simp
  have hcount : cls.toList.count '#' = 0 := by
    have hone : n.method.toList.count '#' = 1 := by cases n <;> decide
    rw [← hlist, count_append, count_cons_self] at hone
    omega
  have hbefore : ∀ c ∈ cls.toList, (c != '#') := by
    intro c hc
    simp only [bne_iff_ne, ne_eq]
    rintro rfl
    exact count_eq_zero.mp hcount hc
  have hdrop : (n.method.toList.dropWhile (· != '#')) = '#' :: sel.toList := by
    rw [← hlist, dropWhile_append_of_pos hbefore]
    rfl
  have hsel : sel.toList = (n.method.toList.dropWhile (· != '#')).tail := by rw [hdrop]; rfl
  unfold Selector.arity
  rw [hsel]
  cases n <;> decide

theorem qualifiedMethodName_native {n : Native} (hsel : p.methodSelector? m = some sel)
    (h : Native.ofMethod? ((p.qualifiedMethodName? m).getD "") = some n) : Selector.arity sel = 1 := by
  cases hq : p.qualifiedMethodName? m with
  | none =>
    have hnone : Native.ofMethod? "" = none := by decide
    rw [hq, Option.getD_none, hnone] at h
    cases h
  | some name =>
    rw [hq, Option.getD_some] at h
    simp only [Forest.qualifiedMethodName?, hsel, Option.some_or, Option.bind_eq_bind,
      Option.bind_some, Option.bind_eq_some_iff, Option.pure_def, Option.some.injEq] at hq
    grind [native_arity]

theorem method_code (hp : p.Grown) (hm : p.Has m) (h : Yields (method p m) s c t) :
    ∃ sel body, p.methodSelector? m = some sel ∧ Answers p sel body ∧
      c = .beginMethod (hashOf sel) (Bytes.ofString ((p.qualifiedMethodName? m).getD "")) ::
        (body ++ [.endMethod]) := by
  rw [method] at h
  obtain ⟨sel, _, hneed, h⟩ := yields_bind.mp h
  obtain ⟨hsel, rfl⟩ := yields_need.mp hneed
  obtain ⟨har, hlen, q, hq, hqsel⟩ := hm.member (.inl hsel)
  have hmem := hp.sown.mem_selectors hq (Forest.mem_selectorsAt hqsel)
  extract_lets name after at h
  have hafter {body : List Instruction} {u : State} (hb : Answers p sel body)
      (h : Yields (after body) u c t) : ∃ sel body, p.methodSelector? m = some sel ∧ Answers p sel body ∧
        c = .beginMethod (hashOf sel) (Bytes.ofString name) :: (body ++ [.endMethod]) := by
    obtain ⟨rfl, -⟩ := yields_pure.mp h
    exact ⟨sel, body, hsel, hb, rfl⟩
  split at h
  · split at h
    · rename_i native hnative
      simp only [yields_bind, yields_pure] at h
      obtain ⟨_, _, ⟨rfl, rfl⟩, h⟩ := h
      exact hafter (.native hmem native (qualifiedMethodName_native hsel hnative)) h
    · simp only [yields_bind, yields_pure] at h
      obtain ⟨_, _, ⟨rfl, rfl⟩, h⟩ := h
      exact hafter (.unimplemented hmem name) h
  · split at h
    · simp only [yields_bind, yields_pure] at h
      obtain ⟨_, _, ⟨rfl, rfl⟩, h⟩ := h
      exact hafter (.unimplemented hmem name) h
    · rename_i e he
      simp only [yields_bind, yields_pure, enterMember, yields_setFrame] at h
      obtain ⟨n, u, harity, -, _, rfl, code, v, hcode, _, _, ⟨rfl, rfl⟩, h⟩ := h
      obtain ⟨hcount, rfl⟩ := yields_arity harity
      have hn : n.toNat = Selector.arity sel + 1 := Option.some.inj (hcount.symm.trans har)
      exact hafter (.body hm hsel he (lowered_expression (in_body hm he) hcode) hn) h

theorem stream_method (hp : p.Grown) (hm : p.Has m) (h : Yields (method p m) s c t) : Stream p K c := by
  obtain ⟨sel, body, -, hb, rfl⟩ := method_code hp hm h
  exact (Segment.method _ hb).stream

theorem lowered_row {es : List Node} (hin : ∀ e ∈ es, (Part.value e).In p)
    (h : Yields (es.mapM (expression p)) s cs t) : Lowered p (.all (es.map .value)) s.frame cs.flatten t.frame := by
  induction es generalizing s cs with
  | nil =>
    obtain ⟨rfl, rfl⟩ := yields_mapM_nil.mp h
    exact .nothing _
  | cons e es ih =>
    obtain ⟨c, u, ds, he, hs, rfl⟩ := yields_mapM_cons.mp h
    have hfirst := lowered_expression (hin e mem_cons_self) he
    exact .all hfirst (ih (fun x hx => hin x (mem_cons_of_mem e hx)) hs)

theorem setters_of_yields {as : List Forest.Assignment} {cs : List Instruction} (h : Yields (as.mapM fun a => do
      let i ← call (a.name ++ ":") a.keyword
      reframe (·.eraseIdx 1)
      return i) s cs t) : cs = as.map fun a => callFrom (a.name ++ ":") a.keyword := by
  induction as generalizing s cs with
  | nil => exact (yields_mapM_nil.mp h).1.symm
  | cons a as ih => grind [yields_bind, yields_call, yields_pure]

theorem initializer_code {code : List Instruction} (hd : p.Has d) (hs : d.shape = .classNode false)
    (hi : p.Has i) (h : Yields (initializer p d i) s code t) :
    ∃ sel body, p.initializerSelector? i = some sel ∧ Answers p sel body ∧
      code = .beginMethod (hashOf sel) (Bytes.ofString ((p.qualifiedMethodName? i).getD "")) ::
        (body ++ [.endMethod]) := by
  simp only [initializer, yields_bind, yields_need, yields_pure, enterMember, yields_setFrame, yields_push] at h
  obtain ⟨sel, _, ⟨hsel, rfl⟩, n, _, harity, -, _, rfl, values, u, hvalues, -, _, rfl, setters, v, hsetters,
    rfl, rfl⟩ := h
  obtain ⟨hcount, rfl⟩ := yields_arity harity
  obtain ⟨har, -⟩ := hi.member (.inr hsel)
  have hn : n.toNat = Selector.arity sel + 1 := Option.some.inj (hcount.symm.trans har)
  have hrow : Lowered p (assigned p i) (memberFrame p i) values.flatten u.frame := by
    have hes : (p.assignments i).reverse.mapM (fun a => expression p a.value) =
        ((p.assignments i).reverse.map (·.value)).mapM (expression p) := (mapM_map ..).symm
    rw [hes] at hvalues
    have hl := lowered_row (fun e he => ?_) hvalues
    · rw [map_map] at hl
      exact hl
    · obtain ⟨a, ha, rfl⟩ := mem_map.mp he
      obtain ⟨hhas, hexp, -⟩ := hi.assignment (mem_reverse.mp ha)
      exact .value hhas hexp
  refine ⟨sel, _, hsel, Answers.initializer hd hs hi hsel hrow hn, ?_⟩
  rw [setters_of_yields hsetters]
  simp

theorem stream_initializer {code : List Instruction} (hd : p.Has d) (hs : d.shape = .classNode false)
    (hi : p.Has i) (h : Yields (initializer p d i) s code t) : Stream p K code := by
  obtain ⟨sel, body, -, hb, rfl⟩ := initializer_code hd hs hi h
  exact (Segment.method _ hb).stream

theorem stream_classMembers (hp : p.Grown) (hn : p.Has n)
    (hs : n.shape = .classNode false) (hK : ∀ i, (∀ r ∈ Machine.refs i, r = .cls (handle n)) → K i)
    (h : Yields (classMembers p n) s c t) : Stream p K c := by
  rw [classMembers] at h
  obtain ⟨held, u, hheld, h⟩ := yields_bind.mp h
  obtain ⟨methods, v, hmethods, h⟩ := yields_bind.mp h
  have hvariables : Stream p K held := stream_of_forall <| forall_of_yields_mapM (fun m hm => by
    intro s t i hi
    obtain ⟨hmem, hs⟩ := mem_filter.mp hm
    simp only [yields_bind, yields_need, yields_pure] at hi
    obtain ⟨name, _, ⟨hname, -⟩, rfl, -⟩ := hi
    exact .field _ (hn.mem_members hmem) hs hname) hheld
  have hdeclare (id : UInt64) (name : Bytes) : Stream p K [.declareClass id name] :=
    (Segment.declare rfl (hK _ (by simp [Machine.refs]))).stream
  have hown := (hdeclare (handle n) (Bytes.ofString ((p.nameOf? n).getD ""))).append
    (hvariables.append (stream_mapM (fun m hm => stream_method hp (hn.mem_members (mem_filter.mp hm).1)) hmethods))
  split at h
  · simp_all [declare]
  · obtain ⟨initializers, w, hinitializers, h⟩ := yields_bind.mp h
    obtain ⟨rfl, -⟩ := yields_pure.mp h
    have hclass := (hdeclare (Instruction.classObjectId (handle n))
      (Bytes.ofString ((p.nameOf? n).getD "" ++ " class"))).append (stream_mapM (fun m hm =>
        stream_initializer hn hs (hn.mem_members (mem_filter.mp hm).1)) hinitializers)
    simpa [declare, declareClassObject] using hown.append hclass

theorem stream_inheritLinks (h : Yields (inheritLinks p n) s c t) (hK : ∀ i ∈ c, K i) : Stream p K c := by
  rw [inheritLinks] at h
  obtain ⟨ty, u, -, h⟩ := yields_bind.mp h
  split at h
  · obtain ⟨bs, v, -, h⟩ := yields_bind.mp h
    obtain ⟨rfl, -⟩ := yields_pure.mp h
    refine stream_of_forall fun i hi => .declare ?_ (hK i hi)
    obtain ⟨b, -, hb⟩ := mem_filterMap.mp hi
    simp only [Option.bind_eq_bind, Option.bind_eq_some_iff] at hb
    obtain ⟨m, -, owner, -, hb⟩ := hb
    split at hb
    · cases hb
    · cases hb
      rfl
  · obtain ⟨rfl, -⟩ := yields_pure.mp h
    exact .nil

theorem stream_globalBinding (hn : p.Has n) (h : Yields (globalBinding p n) s c t) : Stream p K c := by
  simp only [globalBinding, yields_bind, yields_need, yields_pure, yields_setFrame, yields_drop] at h
  obtain ⟨e, _, ⟨he, rfl⟩, -, _, rfl, code, u, hcode, -, _, rfl, rfl, rfl⟩ := h
  have hin := (in_value hn he).1
  exact (Segment.binding (handle n) hin (lowered_expression hin hcode)).stream

theorem stream_declarations (hp : p.Grown) {ds : List Node} (hds : ∀ d ∈ ds, p.Has d)
    (h : Yields (declarations p ds) s c t) : Stream p (fun _ => True) c := by
  simp only [declarations, yields_bind, yields_pure] at h
  obtain ⟨heads, _, hheads, members, _, hmembers, links, _, hlinks, bindings, _, hbindings, rfl, -⟩ := h
  have hclass {d : Node} (hd : d ∈ ds.filter (·.shape == .classNode false)) :
      p.Has d ∧ d.shape = .classNode false :=
    (mem_filter.mp hd).imp (hds d) beq_iff_eq.mp
  have hheads := stream_mapM (fun d _ => stream_classHead fun _ _ => trivial) hheads
  have hmembers := stream_mapM (fun d hd => stream_classMembers hp (hclass hd).1 (hclass hd).2 fun _ _ => trivial)
    hmembers
  have hlinks := stream_mapM (fun d _ _ _ _ h => stream_inheritLinks h fun _ _ => trivial) hlinks
  exact ((hheads.append hmembers).append hlinks).append
    (stream_mapM (fun d hd => stream_globalBinding (hds d (mem_filter.mp hd).1)) hbindings)

theorem stream_plainStatement (hn : p.Has n) (h : Yields (plainStatement p n) s c t) : Stream p K c := by
  rw [plainStatement] at h
  obtain ⟨_, u, hu, h⟩ := yields_bind.mp h
  have hframe : u.frame = [] := by rw [← yields_setFrame.mp hu]
  have hexpression {e : Node} {v w : State} {code : List Instruction} (hin : (Part.value e).In p)
      (hv : v.frame = []) (h : Yields (expression p e) v code w) : Stream p K code := by
    have hl := lowered_expression hin h
    rw [hv] at hl
    exact (Segment.statement hin hl).stream
  split at h
  · exact stream_globalBinding hn h
  · simp only [yields_bind, yields_need] at h
    obtain ⟨e, _, ⟨he, rfl⟩, h⟩ := h
    exact hexpression (in_value hn he).1 hframe h
  · rename_i word hs
    have hnil : c = [] := by
      split at h
      · simp_all
      · exact (yields_pure.mp h).1.symm
    exact hnil ▸ .nil
  · split at h
    · rename_i hs
      exact hexpression (.value hn hs) hframe h
    · obtain ⟨rfl, -⟩ := yields_pure.mp h
      exact .nil

theorem stream_statement (hn : p.Has n) (h : Yields (statement p n) s c t) : Stream p K c := by
  unfold statement at h
  split at h
  · rename_i d hd
    exact stream_plainStatement (hn.mem_within.mp (mem_of_find?_eq_some hd)).1 h
  · obtain ⟨rfl, -⟩ := yields_pure.mp h
    exact .nil

theorem has_lineDeclaration (hn : p.Has n) (hd : d ∈ p.lineDeclarations n) : p.Has d := by
  unfold Forest.lineDeclarations at hd
  split at hd
  · exact (hn.child (mem_filter.mp hd).1).1
  · cases hd

theorem has_moduleDeclaration (hp : p.Grown) (hd : d ∈ p.modules.flatMap (moduleDeclarations p)) : p.Has d := by
  obtain ⟨m, hm, hd⟩ := mem_flatMap.mp hd
  obtain ⟨e, he, rfl⟩ := mem_map.mp hd
  exact ((hp.sown.has_root (mem_filter.mp hm).1).moduleDeclaration he).1

theorem stream_line (hp : p.Grown) (hn : p.Has n) (h : Yields (line p n) s c t) : Stream p (fun _ => True) c := by
  simp only [line, yields_bind, yields_pure] at h
  obtain ⟨before, u, hbefore, code, v, hcode, rfl, -⟩ := h
  refine (stream_declarations hp (fun d hd => ?_) hbefore).append
    (stream_mapM (fun m hm => stream_statement (hn.child hm).1) hcode)
  exact has_lineDeclaration hn (mem_filter.mp hd).1

theorem stream_whole (hp : p.Grown) (h : Yields (whole p) s c t) :
    ∃ k, c = k ++ [.halt] ∧ Stream p (fun _ => True) k := by
  simp only [whole, yields_bind, yields_pure] at h
  obtain ⟨before, u, hbefore, lines, v, hlines, rfl, -⟩ := h
  refine ⟨_, rfl, (stream_declarations hp (fun d hd => ?_) hbefore).append
    (stream_mapM (fun n hn => stream_line hp ?_) hlines)⟩
  · exact has_moduleDeclaration hp hd
  · exact hp.sown.has_root (mem_filter.mp (mem_mergeSort.mp hn)).1

/-! ### Heights -/

theorem isEnd_of_ends {h : Nat} (hc : Ends C h c) : ∀ i ∈ c, Machine.isEnd i = false := by
  induction hc with
  | done => exact nofun
  | return_ | returnLazy => simp [Machine.isEnd, Instruction.op]
  | next hi _ ih =>
    intro j hj
    rcases mem_cons.mp hj with rfl | hj
    · cases hi with
      | load hi => cases j <;> simp_all [Machine.loads, Machine.isEnd, Instruction.op]
      | _ => rfl
    · exact ih j hj

theorem ofString_append_colon (s : String) : Bytes.ofString (s ++ ":") = Bytes.ofString s ++ [58] := by
  simp [Bytes.ofString, Utf8.encode]
  rfl

theorem Segment.top (hp : p.Grown) (hd : Distinct p) {k : List Instruction} (h : Segment p K c)
    (hk : ∀ height, Machine.Top (contract p) height k) (height : Nat) : Machine.Top (contract p) height (c ++ k) := by
  cases h with
  | declare hi hK => exact .declare hi (hk height)
  | field id hv hs hname =>
    obtain ⟨hisName, hget, hset⟩ := variable_selector hp hv hs hname
    refine .declareVariable id ?_ ?_ (hk height)
    · exact (arityOf_hash hd hget).trans (Selector.arity_of_isName hisName)
    · rw [← ofString_append_colon]
      exact (arityOf_hash hd hset).trans (Selector.arity_keyword hisName)
  | method name hb =>
    rw [cons_append, append_assoc]
    exact .method name ⟨_, rfl, hb⟩ (isEnd_of_ends (hb.ends hp hd)) (hk height)
  | @binding e c g id hin hc =>
    have hclimbs := hc.climbs hp hd hin height
    obtain ⟨r, rfl, -⟩ := grows_value (hc.grows hin)
    rw [length_nil, Nat.zero_add, length_singleton, Nat.add_comm] at hclimbs
    rw [append_assoc]
    exact hclimbs.top (.storeGlobal id (hk height))
  | @statement e c g hin hc =>
    have hclimbs := hc.climbs hp hd hin height
    rw [length_nil, Nat.zero_add] at hclimbs
    exact hclimbs.top (hk _)

theorem Stream.top (hp : p.Grown) (hd : Distinct p) {k : List Instruction} (h : Stream p K c)
    (hk : ∀ height, Machine.Top (contract p) height k) (height : Nat) : Machine.Top (contract p) height (c ++ k) := by
  induction h generalizing height with
  | nil => exact hk height
  | cons h _ ih =>
    rw [append_assoc]
    exact h.top hp hd ih height

end Parlance.Lowering
