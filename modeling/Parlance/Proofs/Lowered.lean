import Parlance.Lowering
import Parlance.Proofs.Scopes
import Parlance.Proofs.StackHeights
/-!
What code lowering gives: one rule for each form of expression, with the frame before and after it.
-/
namespace Parlance.Lowering

open List

variable {α β : Type} {s t : State} {m n : Node} {c : List Instruction} {u : Unit} {f g : Frame} {slot : Slot}
  {i : Instruction} {a : α} {at_ e receiver : Node} {bs : List β} {as : List α} {x : Typing α} {first : Nat} {v : Int}
  {cs : List (List Instruction)}

/-! ### Lowering that succeeds -/

def Yields (g : Gen α) (s : State) (a : α) (t : State) : Prop := (ExceptT.run g).run s = (.ok a, t)

@[simp] theorem yields_bind {g : Gen α} {k : α → Gen β} {b : β} :
    Yields (g >>= k) s b t ↔ ∃ a u, Yields g s a u ∧ Yields (k a) u b t := by
  unfold Yields ExceptT.run StateT.run
  simp only [bind, ExceptT.bind, ExceptT.mk, StateT.bind]
  constructor
  · intro h
    cases hg : g s with
    | mk r u =>
      rw [hg] at h
      cases r with
      | error e => cases h
      | ok a => exact ⟨a, u, rfl, h⟩
  · rintro ⟨a, u, hg, hk⟩
    rw [hg]
    exact hk

@[simp] theorem yields_pure {b : α} : Yields (pure a) s b t ↔ a = b ∧ s = t := by
  constructor
  · intro h
    cases h
    exact ⟨rfl, rfl⟩
  · rintro ⟨rfl, rfl⟩
    rfl

@[simp] theorem yields_map {g : Gen α} {f : α → β} {b : β} :
    Yields (f <$> g) s b t ↔ ∃ a, Yields g s a t ∧ f a = b := by
  rw [map_eq_pure_bind, yields_bind]
  simp only [yields_pure]
  grind

@[simp] theorem not_yields_fail {c : Cause} : ¬ Yields (fail n c) s a t := nofun

@[simp] theorem yields_need {c : Cause} {o : Option α} : Yields (need n c o) s a t ↔ o = some a ∧ s = t := by
  cases o <;> simp [need]

@[simp] theorem yields_get {a : State} : Yields get s a t ↔ s = a ∧ s = t := by
  constructor
  · intro h
    cases h
    exact ⟨rfl, rfl⟩
  · rintro ⟨rfl, rfl⟩
    rfl

@[simp] theorem yields_reframe {g : Frame → Frame} : Yields (reframe g) s u t ↔ { s with frame := g s.frame } = t := by
  constructor
  · intro h
    cases h
    rfl
  · rintro rfl
    rfl

@[simp] theorem yields_setFrame :
    Yields (setFrame f) s u t ↔ { s with frame := f } = t := yields_reframe (g := fun _ => f)

@[simp] theorem yields_push : Yields (push n) s u t ↔ { s with frame := .value n.id :: s.frame } = t := yields_reframe

@[simp] theorem yields_drop {k : Nat} : Yields (drop k) s u t ↔ { s with frame := s.frame.drop k } = t := yields_reframe

@[simp] theorem yields_nameTop : Yields (nameTop n) s u t ↔ { s with frame := .value n.id :: s.frame.drop 1 } = t := by
  simp [nameTop]

@[simp] theorem yields_index {c : Cause} {i : UInt16} :
    Yields (index n c slot) s i t ↔ s.frame.index? slot = some i ∧ s = t := by
  simp only [index, yields_bind, yields_get, yields_need]
  grind

@[simp] theorem yields_dropDeclaration :
    Yields (dropDeclaration at_ n) s c t ↔ ∃ i, s.frame.index? (.value n.id) = some i ∧
      c = [.dropLocal i] ∧ { s with frame := s.frame.eraseIdx i.toNat } = t := by
  simp only [dropDeclaration, yields_bind, yields_index, yields_reframe, yields_pure]
  grind

@[simp] theorem yields_mapM_nil {f : α → Gen β} : Yields (List.mapM f []) s bs t ↔ [] = bs ∧ s = t := by
  simp

@[simp] theorem yields_mapM_cons {f : α → Gen β} : Yields ((a :: as).mapM f) s bs t ↔
      ∃ b u cs, Yields (f a) s b u ∧ Yields (as.mapM f) u cs t ∧ b :: cs = bs := by
  simp only [mapM_cons, yields_bind, yields_pure]
  grind

theorem yields_typing : Yields (typing x) s a t ↔ (x.run s.memo).1 = a ∧ { s with memo := (x.run s.memo).2 } = t := by
  constructor
  · intro h
    cases h
    exact ⟨rfl, rfl⟩
  · rintro ⟨rfl, rfl⟩
    rfl

theorem frame_of_yields_typing (h : Yields (typing x) s a t) : t.frame = s.frame := by
  rw [← (yields_typing.mp h).2]

def callFrom (selector : String) (n : Node) : Instruction :=
  .callMethod (hashOf selector) (Bytes.ofString n.span.uri) n.span.start.line.toUInt32
    (.ofInt n.span.start.character)

def HasPlace (n : Node) : Prop :=
  n.span.start.line < Nat.pow 2 32 ∧ 0 ≤ n.span.start.character ∧ n.span.start.character < Nat.pow 2 32

@[simp] theorem yields_call {selector : String} :
    Yields (call selector n) s i t ↔ HasPlace n ∧ callFrom selector n = i ∧ s = t := by
  simp only [call, HasPlace, callFrom]
  grind [yields_bind, not_yields_fail, yields_pure]

/-! ### Rules -/

/-- What is lowered: an expression, an argument, a slot whose value is loaded, several such parts in a row,
or messages sent to the value of a cascade. -/
inductive Part where
  | value (n : Node)
  | argument (n : Node)
  | load (slot : Slot)
  | all (parts : List Part)
  | messages (n : Node) (ms : List Node)

/-- The number of the object that a class stands for: its class object if it has one, or else its instance. -/
def objectId (p : Program) (d : Node) : UInt64 :=
  if p.hasClassObject d then Instruction.classObjectId (handle d) else handle d

/-- The one instruction of an expression that means the same wherever it stands: literals, classes and
globals do. -/
inductive Fixed (p : Program) (n : Node) : Instruction → Prop where
  | string {w v} (hn : n.shape = .string w v) : Fixed p n (.constString (Bytes.ofString v))
  | character {w v} (hn : n.shape = .character w v) : Fixed p n (.constCharacter (Char.ofNat v).val)
  | symbol {w v} (hn : n.shape = .symbolLiteral w v) : Fixed p n (.constSymbol (Bytes.ofString v))
  | integer {w v i s t} (hn : n.shape = .integer w v) (hi : Yields (integer p n v) s i t) : Fixed p n i
  | float {w v i s t} (hn : n.shape = .float w v) (hi : Yields (float p n v) s i t) : Fixed p n i
  | object {d} (hn : n.shape = .reference) (hd : p.declaration? n .value = some d) (hs : d.shape = .classNode false) :
    Fixed p n (.loadObject (objectId p d))
  | global {d} (hn : n.shape = .reference) (hd : p.declaration? n .value = some d) (hs : d.shape = .letBinding)
    (hg : p.isGlobalBinding d) : Fixed p n (.loadGlobal (handle d))

def sent (p : Program) (m : Node) : Part := .all ((p.arguments m).reverse.map .argument)

def captured (p : Program) (n : Node) : List Slot :=
  (p.crossing n).map (fun d => .value d.id) ++ if p.selfCrosses n then [.self] else []

def captures (p : Program) (n : Node) : Part := .all ((captured p n).map .load)

def cascaded (p : Program) (n : Node) : List Node := (p.children n).filter (·.shape.isMessage)

/-- The code of a part that is lowered over a frame, and the frame after it. -/
inductive Lowered (p : Program) : Part → Frame → List Instruction → Frame → Prop where
  | load {slot : Slot} {f : Frame} {i} (hi : f.index? slot = some i) :
    Lowered p (.load slot) f [.loadLocal i] (slot :: f)
  | nothing (f : Frame) : Lowered p (.all []) f [] f
  | all {q qs f g g' c cs} (h : Lowered p q f c g) (hs : Lowered p (.all qs) g cs g') :
    Lowered p (.all (q :: qs)) f (c ++ cs) g'
  | self {n : Node} {f g c} (hn : n.shape = .selfReference) (h : Lowered p (.load .self) f c g) :
    Lowered p (.value n) f c (.value n.id :: f)
  | held {n : Node} {d f g c} (hn : n.shape = .reference) (hd : p.declaration? n .value = some d)
    (hs : d.shape = .parameter ∨ d.shape = .letBinding) (h : Lowered p (.load (.value d.id)) f c g) :
    Lowered p (.value n) f c (.value n.id :: f)
  | field {n : Node} {d name f g c} (hn : n.shape = .reference) (hd : p.declaration? n .value = some d)
    (hs : d.shape.isVariable) (hname : p.nameOf? d = some name) (h : Lowered p (.load .self) f c g) :
    Lowered p (.value n) f (c ++ [callFrom name n]) (.value n.id :: f)
  | fixed {n : Node} {i : Instruction} (f : Frame) (hi : Fixed p n i) : Lowered p (.value n) f [i] (.value n.id :: f)
  | tuple {n : Node} {e f g c} (hn : n.shape = .tuple) (he : p.value? n = some e) (h : Lowered p (.value e) f c g) :
    Lowered p (.value n) f c g
  | send {n : Node} {e m sel f g g' before code} (hn : n.shape = .send) (he : p.value? n = some e)
    (hm : p.part? Shape.isMessage n = some m) (hsel : p.selector? m = some sel)
    (hargs : Lowered p (sent p m) f before g) (hcode : Lowered p (.value e) g code g') :
    Lowered p (.value n) f (before ++ code ++ [callFrom sel m]) (.value n.id :: f)
  | cascade {n : Node} {e r r' f code sends} (hn : n.shape = .cascade) (he : p.value? n = some e)
    (hcode : Lowered p (.value e) f code (r :: f))
    (hsends : Lowered p (.messages n (cascaded p n)) (.value n.id :: f) sends (r' :: .value n.id :: f)) :
    Lowered p (.value n) f (code ++ sends ++ [.dropLocal 1]) (.value n.id :: f)
  | let_ {n : Node} {b e v r r' f before code} (hn : n.shape = .letExpression)
    (hb : p.part? (· == .letBinding) n = some b) (he : p.value? n = some e) (hv : p.value? b = some v)
    (hbefore : Lowered p (.value v) f before (r :: f))
    (hcode : Lowered p (.value e) (.value b.id :: f) code (r' :: .value b.id :: f)) :
    Lowered p (.value n) f (before ++ code ++ [.dropLocal 1]) (.value n.id :: f)
  | panic {n : Node} {e f g code} (hn : n.shape = .panicExpression) (he : p.value? n = some e)
    (hcode : Lowered p (.value e) f code g) : Lowered p (.value n) f (code ++ [.panic]) (.value n.id :: f)
  | strict {n : Node} {f g c} (hn : isCompound n.shape = false) (h : Lowered p (.value n) f c g) :
    Lowered p (.argument n) f c g
  | lazy {n : Node} {k : UInt16} {f g g' loads body} (hn : isCompound n.shape)
    (hk : k.toNat = (captured p n).length) (hloads : Lowered p (captures p n) f loads g)
    (hbody : Lowered p (.value n) (captured p n).reverse body g') :
    Lowered p (.argument n) f (loads ++ [.loadLazy k (body ++ [.returnLazy k])]) (.value n.id :: f)
  | message {n : Node} {m sel f g g' before load} (hsel : p.selector? m = some sel)
    (hargs : Lowered p (sent p m) f before g) (hload : Lowered p (.load (.value n.id)) g load g') :
    Lowered p (.messages n [m]) f (before ++ load ++ [callFrom sel m]) (.value m.id :: f)
  | messages {n m ms f g h first rest} (hfirst : Lowered p (.messages n [m]) f first g)
    (hrest : Lowered p (.messages n ms) f rest h) :
    Lowered p (.messages n (m :: ms)) f (first ++ [.dropLocal 0] ++ rest) h

inductive Part.In (p : Program) : Part → Prop where
  | value {n : Node} (hn : p.Has n) (hs : n.shape.isExpression) : In p (.value n)
  | argument {n : Node} (hn : p.Has n) (hs : n.shape.isExpression) : In p (.argument n)
  | load (slot : Slot) : In p (.load slot)
  | all {qs} (h : ∀ q ∈ qs, In p q) : In p (.all qs)
  | messages {n : Node} {ms} (h : ∀ m ∈ ms, p.Has m ∧ m.shape.isMessage ∧ n.id < m.id) : In p (.messages n ms)

/-- A slot for the result of an expression or a message, from position `first` on. -/
def IsResult (p : Program) (first : Nat) (slot : Slot) : Prop :=
  ∃ r, p.Has r ∧ (r.shape.isExpression ∨ r.shape.isMessage) ∧ first ≤ r.id ∧
    slot = .value r.id

inductive Part.Grows (p : Program) : Part → Frame → Frame → Prop where
  | value {n : Node} {r} (f : Frame) (hr : IsResult p n.id r) : Grows p (.value n) f (r :: f)
  | argument {n : Node} {r} (f : Frame) (hr : IsResult p n.id r) : Grows p (.argument n) f (r :: f)
  | load (slot : Slot) (f : Frame) : Grows p (.load slot) f (slot :: f)
  | nothing (f : Frame) : Grows p (.all []) f f
  | all {q qs f g g'} (h : Grows p q f g) (hs : Grows p (.all qs) g g') : Grows p (.all (q :: qs)) f g'
  | messages {n m ms} (f : Frame) (hm : m ∈ ms) : Grows p (.messages n ms) f (.value m.id :: f)

variable {p : Program}

theorem isResult_of_has (hn : p.Has n) (hs : n.shape.isExpression) :
    IsResult p n.id (.value n.id) := ⟨n, hn, .inl hs, Nat.le_refl _, rfl⟩

theorem IsResult.mono {first' : Nat} (hle : first' ≤ first) (h : IsResult p first slot) : IsResult p first' slot := by
  obtain ⟨r, hr, hs, hf, rfl⟩ := h
  exact ⟨r, hr, hs, by omega, rfl⟩

theorem in_value (h : p.Has n) (he : p.value? n = some e) : (Part.value e).In p ∧ n.id < e.id := by
  obtain ⟨hmem, hs⟩ := Forest.part?_mem he
  exact ⟨.value (h.part he) hs, (h.child hmem).2.2.1⟩

theorem Lowered.grows {part : Part} (h : Lowered p part f c g) (hin : part.In p) : part.Grows p f g := by
  induction h with
  | load => exact .load _ _
  | nothing f => exact .nothing f
  | all h hs ih ihs =>
    cases hin with
    | all hq =>
      exact .all (ih (hq _ mem_cons_self)) (ihs (.all fun r hr => hq r (mem_cons_of_mem _ hr)))
  | self | held | field | fixed | send | cascade | let_ | panic =>
    cases hin with
    | value hn hs => exact .value _ (isResult_of_has hn hs)
  | tuple hn he h ih =>
    cases hin with
    | value hhas hs =>
      obtain ⟨hine, hlt⟩ := in_value hhas he
      cases ih hine with
      | value _ hr => exact .value _ (hr.mono (Nat.le_of_lt hlt))
  | strict hn h ih =>
    cases hin with
    | argument hhas hs =>
      cases ih (.value hhas hs) with
      | value _ hr => exact .argument _ hr
  | lazy =>
    cases hin with
    | argument hhas hs => exact .argument _ (isResult_of_has hhas hs)
  | message => exact .messages _ mem_cons_self
  | messages hfirst hrest ihfirst ihrest =>
    cases hin with
    | messages hms =>
      cases ihrest (.messages fun m hm => hms m (mem_cons_of_mem _ hm)) with
      | messages _ hm => exact .messages _ (mem_cons_of_mem _ hm)

theorem grows_value (h : (Part.value n).Grows p f g) : ∃ r, g = r :: f ∧ IsResult p n.id r := by
  cases h with
  | value f hr => exact ⟨_, rfl, hr⟩

theorem grows_row {part : α → Part} (hpart : ∀ {a : α} {f g : Frame}, (part a).Grows p f g → ∃ r, g = r :: f)
    (h : (Part.all (as.map part)).Grows p f g) : ∃ rs, g = rs ++ f ∧ rs.length = as.length := by
  induction as generalizing f with
  | nil =>
    cases h
    exact ⟨[], rfl, rfl⟩
  | cons a as ih =>
    cases h with
    | all h hs =>
      obtain ⟨r, rfl⟩ := hpart h
      obtain ⟨rs, rfl, hlen⟩ := ih hs
      exact ⟨rs ++ [r], by simp, by simp [hlen]⟩

theorem grows_sent (h : (sent p m).Grows p f g) : ∃ rs, g = rs ++ f ∧ rs.length = (p.arguments m).length := by
  obtain ⟨rs, hg, hlen⟩ := grows_row (fun h => by cases h with | argument => exact ⟨_, rfl⟩) h
  exact ⟨rs, hg, by rw [hlen, length_reverse]⟩

theorem in_captures (n : Node) : (captures p n).In p := by
  refine .all fun q hq => ?_
  obtain ⟨slot, -, rfl⟩ := mem_map.mp hq
  exact .load slot

theorem grows_captures (h : (captures p n).Grows p f g) : ∃ rs, g = rs ++ f ∧ rs.length = (captured p n).length :=
  grows_row (fun h => by cases h with | load => exact ⟨_, rfl⟩) h

/-! ### Frames -/

theorem index?_eq_some {i : UInt16} : f.index? slot = some i ↔ f.idxOf? slot = some i.toNat := by
  unfold Frame.index?
  rw [Option.bind_eq_some_iff]
  constructor
  · grind [UInt16.toNat_ofNat_of_lt']
  · intro h
    refine ⟨i.toNat, h, ?_⟩
    rw [if_pos i.toNat_lt]
    simp

theorem getElem?_of_index? {i : UInt16} (h : f.index? slot = some i) : f[i.toNat]? = some slot := by
  obtain ⟨hlt, heq, -⟩ := idxOf?_eq_some_iff.mp (index?_eq_some.mp h)
  rw [List.getElem?_eq_getElem hlt, heq]

theorem index?_append (rs : Frame) {i : UInt16} (hne : slot ∉ rs)
    (h : (rs ++ slot :: f).index? slot = some i) : i.toNat = rs.length := by
  have h := index?_eq_some.mp h
  rw [idxOf?, findIdx?_append, ← idxOf?, idxOf?_eq_none_iff.mpr hne,
    idxOf?_cons, beq_self_eq_true] at h
  simpa using h.symm

theorem ne_declaration_of_isResult (h : IsResult p first slot) {d : Node}
    (hd : p.Has d) (hs : d.shape.isExpression = false) (hm : d.shape.isMessage = false) : slot ≠ .value d.id := by
  obtain ⟨r, hr, hshape, -, rfl⟩ := h
  intro he
  injection he with he
  obtain rfl := hr.eq_of_id hd he
  rw [hs, hm] at hshape
  simp at hshape

/-! ### Lowering keeps to the rules -/

theorem lowered_fixed (hi : Fixed p n i) (h : Yields (do push n; return [i]) s c t) :
    Lowered p (.value n) s.frame c t.frame := by
  simp only [yields_bind, yields_push, yields_pure] at h
  obtain ⟨-, _, rfl, rfl, rfl⟩ := h
  exact .fixed _ hi

theorem lowered_reference (hn : n.shape = .reference)
    (h : Yields (reference p n) s c t) : Lowered p (.value n) s.frame c t.frame := by
  obtain ⟨d, u, hneed, h⟩ := yields_bind.mp h
  obtain ⟨hd, rfl⟩ := yields_need.mp hneed
  split at h
  · rename_i isPartial hs
    cases isPartial with
    | true => simp at h
    | false => exact lowered_fixed (.object hn hd hs) h
  · rename_i hs
    simp only [yields_bind, yields_pure, yields_push, yields_index] at h
    obtain ⟨i, u, ⟨hi, rfl⟩, code, w, ⟨rfl, rfl⟩, -, x, rfl, rfl, rfl⟩ := h
    exact .held hn hd (.inl hs) (.load hi)
  · rename_i hs
    obtain ⟨st, u, hst, h⟩ := yields_bind.mp h
    obtain ⟨rfl, rfl⟩ := yields_get.mp hst
    split at h
    · rename_i i hi
      simp only [yields_bind, yields_pure, yields_push] at h
      obtain ⟨code, u, ⟨rfl, rfl⟩, -, w, rfl, rfl, rfl⟩ := h
      exact .held hn hd (.inr hs) (.load hi)
    · split at h
      · exact lowered_fixed (.global hn hd hs (by assumption)) h
      · simp at h
  · rename_i hs
    simp only [yields_bind, yields_pure, yields_push, yields_need, yields_index, yields_call] at h
    obtain ⟨name, u, ⟨hname, rfl⟩, i, u, ⟨hi, rfl⟩, _, u, ⟨-, rfl, rfl⟩, code, w, ⟨rfl, rfl⟩, -, x, rfl, rfl, rfl⟩ := h
    exact .field hn hd (by rw [hs]; rfl) hname (.load hi)
  · simp at h

theorem frame_of_literalClass {o : Option NumberClass} (h : Yields (literalClass? p n) s o t) : t.frame = s.frame := by
  obtain ⟨ty, u, hty, h⟩ := yields_bind.mp h
  rw [← frame_of_yields_typing hty]
  split at h
  · rename_i name id args
    extract_lets qualified at h
    split at h
    · rw [(yields_pure.mp h).2]
    · split at h
      · rw [(yields_pure.mp h).2]
      · simp at h
  · rw [(yields_pure.mp h).2]

def isNumber : Instruction → Bool
  | .constInt .. | .constF32 _ | .constF64 _ | .constFBig _ => true
  | _ => false

theorem isNumber_floatConst (c : NumberClass) (v : Rat) : isNumber (floatConst c v) := by
  unfold floatConst
  split <;> rfl

theorem loads_of_isNumber (h : isNumber i) : Machine.loads i := by
  cases i <;> first | rfl | cases h

theorem integer_code (h : Yields (integer p n v) s i t) :
    ((∃ w, i = .constInt w v) ∨ ∃ c, i = floatConst c v) ∧ t.frame = s.frame := by
  obtain ⟨o, u, ho, h⟩ := yields_bind.mp h
  rw [← frame_of_literalClass ho]
  extract_lets c at h
  split at h
  · obtain ⟨rfl, rfl⟩ := yields_pure.mp h
    exact ⟨.inr ⟨c, rfl⟩, rfl⟩
  · split at h
    · simp at h
    · obtain ⟨rfl, rfl⟩ := yields_pure.mp h
      exact ⟨.inl ⟨_, rfl⟩, rfl⟩

theorem float_code {v : Rat} (h : Yields (float p n v) s i t) : (∃ c, i = floatConst c v) ∧ t.frame = s.frame := by
  obtain ⟨o, u, ho, h⟩ := yields_bind.mp h
  rw [← frame_of_literalClass ho]
  split at h
  · obtain ⟨rfl, rfl⟩ := yields_pure.mp h
    exact ⟨⟨_, rfl⟩, rfl⟩
  · rename_i c
    split at h
    · obtain ⟨rfl, rfl⟩ := yields_pure.mp h
      exact ⟨⟨_, rfl⟩, rfl⟩
    · split at h
      · simp at h
      · obtain ⟨rfl, rfl⟩ := yields_pure.mp h
        exact ⟨⟨c, rfl⟩, rfl⟩

theorem isNumber_integer (h : Yields (integer p n v) s i t) : isNumber i := by
  obtain ⟨⟨w, rfl⟩ | ⟨c, rfl⟩, -⟩ := integer_code h
  · rfl
  · exact isNumber_floatConst c v

theorem isNumber_float {v : Rat} (h : Yields (float p n v) s i t) : isNumber i := by
  obtain ⟨⟨c, rfl⟩, -⟩ := float_code h
  exact isNumber_floatConst c v

theorem Fixed.loads (h : Fixed p n i) : Machine.loads i := by
  cases h with
  | integer hn hi => exact loads_of_isNumber (isNumber_integer hi)
  | float hn hi => exact loads_of_isNumber (isNumber_float hi)
  | _ => rfl

structure Faithful (p : Program) (fuel : Nat) : Prop where
  value : ∀ {n : Node} {s t : State} {c : List Instruction}, (Part.value n).In p →
    Yields (expressionIn p fuel n) s c t → Lowered p (.value n) s.frame c t.frame
  lazy : ∀ {n : Node} {s t : State} {c : List Instruction}, (Part.value n).In p →
    isCompound n.shape → Yields (lazyIn p fuel n) s c t → Lowered p (.argument n) s.frame c t.frame
  send : ∀ {site m : Node} {receiver : Gen (List Instruction)} {s t : State} {c : List Instruction},
    p.Has m → Yields (sendIn p fuel site m receiver) s c t →
    (∀ {u v : State} {code : List Instruction}, Yields receiver u code v → v.frame.drop 1 = u.frame) →
    ∃ sel before code u v, p.selector? m = some sel ∧ c = before ++ code ++ [callFrom sel m] ∧
      Lowered p (sent p m) s.frame before u.frame ∧ Yields receiver u code v ∧
      t.frame = .value site.id :: s.frame
  cascade : ∀ {n : Node} {s t : State} {c : List Instruction}, p.Has n → n.shape = .cascade →
    Yields (cascadeIn p fuel n) s c t → Lowered p (.value n) s.frame c t.frame
  let_ : ∀ {n : Node} {s t : State} {c : List Instruction}, p.Has n → n.shape = .letExpression →
    Yields (letIn p fuel n) s c t → Lowered p (.value n) s.frame c t.frame

theorem faithful_zero (p : Program) : Faithful p 0 := by
  constructor <;> intros <;> simp_all [expressionIn, lazyIn, sendIn, cascadeIn, letIn]

variable {fuel : Nat}

theorem Faithful.grown (ih : Faithful p fuel) (hn : p.Has n)
    (he : p.value? n = some e) (h : Yields (expressionIn p fuel e) s c t) :
    ∃ r, t.frame = r :: s.frame ∧ IsResult p e.id r ∧ Lowered p (.value e) s.frame c (r :: s.frame) := by
  have hin := (in_value hn he).1
  have hl := ih.value hin h
  obtain ⟨r, hr, hres⟩ := grows_value (hl.grows hin)
  exact ⟨r, hr, hres, hr ▸ hl⟩

theorem Faithful.arguments (ih : Faithful p fuel) {as : List Node} (has : ∀ a ∈ as, (Part.value a).In p)
    (h : Yields (as.mapM fun a => if isCompound a.shape then lazyIn p fuel a else expressionIn p fuel a) s cs t) :
    Lowered p (.all (as.map .argument)) s.frame cs.flatten t.frame := by
  induction as generalizing s cs with
  | nil =>
    obtain ⟨rfl, rfl⟩ := yields_mapM_nil.mp h
    exact .nothing _
  | cons a as ihas =>
    obtain ⟨b, u, ds, ha, hs, rfl⟩ := yields_mapM_cons.mp h
    have hin := has a mem_cons_self
    refine .all ?_ (ihas (fun x hx => has x (mem_cons_of_mem a hx)) hs)
    split at ha
    · exact ih.lazy hin (by assumption) ha
    · exact .strict (by simp_all) (ih.value hin ha)

theorem in_argument {a : Node} (h : p.Has m) (ha : a ∈ (p.arguments m).reverse) : p.Has a ∧ a.shape.isExpression := by
  obtain ⟨hhas, hs, -⟩ := h.argument (mem_reverse.mp ha)
  exact ⟨hhas, hs⟩

theorem in_sent (h : p.Has m) : (sent p m).In p := by
  refine .all fun q hq => ?_
  obtain ⟨a, ha, rfl⟩ := mem_map.mp hq
  obtain ⟨hhas, hs⟩ := in_argument h ha
  exact .argument hhas hs

theorem Faithful.step_send (ih : Faithful p fuel) {site : Node} {receiver : Gen (List Instruction)}
    (hm : p.Has m) (h : Yields (sendIn p (fuel + 1) site m receiver) s c t)
    (hreceiver : ∀ {u v : State} {code : List Instruction}, Yields receiver u code v →
      v.frame.drop 1 = u.frame) :
    ∃ sel before code u v, p.selector? m = some sel ∧ c = before ++ code ++ [callFrom sel m] ∧
      Lowered p (sent p m) s.frame before u.frame ∧ Yields receiver u code v ∧
      t.frame = .value site.id :: s.frame := by
  rw [sendIn] at h
  simp only [yields_bind, yields_need, yields_call, yields_drop, yields_push, yields_pure] at h
  obtain ⟨sel, _, ⟨hsel, rfl⟩, before, u, hbefore, code, v, hcode, _, _, ⟨-, rfl, rfl⟩, -, _, rfl, -, _, rfl,
    rfl, rfl⟩ := h
  have hargs : Lowered p (sent p m) s.frame before.flatten u.frame :=
    ih.arguments (fun a ha => .value (in_argument hm ha).1 (in_argument hm ha).2) hbefore
  obtain ⟨rs, hu, hlen⟩ := grows_sent (hargs.grows (in_sent hm))
  grind [drop_drop, drop_left]

theorem captures_of_yields {ds : List Node} {cs : List Instruction} (h : Yields (ds.mapM fun d => do
      let i ← index n (.captureNotHeld (handle d)) (.value d.id)
      push d
      return Instruction.loadLocal i) s cs t) :
    cs.length = ds.length ∧ t.frame = (ds.map fun d => Slot.value d.id).reverse ++ s.frame ∧
      ∀ {parts : List Part} {c : List Instruction} {g : Frame}, Lowered p (.all parts) t.frame c g →
        Lowered p (.all ((ds.map fun d => .load (.value d.id)) ++ parts)) s.frame (cs ++ c) g := by
  induction ds generalizing s cs with
  | nil => simp_all
  | cons d ds ih =>
    obtain ⟨i, u, is, hd, hs, rfl⟩ := yields_mapM_cons.mp h
    simp only [yields_bind, yields_index, yields_push, yields_pure] at hd
    obtain ⟨k, _, ⟨hk, rfl⟩, -, _, rfl, rfl, rfl⟩ := hd
    obtain ⟨hlen, hframe, hrest⟩ := ih hs
    exact ⟨by simp [hlen], by simp [hframe], fun hl => Lowered.all (c := [_]) (.load hk) (hrest hl)⟩

theorem Faithful.step_lazy (ih : Faithful p fuel) (hin : (Part.value n).In p) (hn : isCompound n.shape)
    (h : Yields (lazyIn p (fuel + 1) n) s c t) : Lowered p (.argument n) s.frame c t.frame := by
  rw [lazyIn] at h
  obtain ⟨cs, u, hcs, h⟩ := yields_bind.mp h
  obtain ⟨hlen, hu, hcaptures⟩ := captures_of_yields (p := p) hcs
  extract_lets withSelf inner after at h
  -- What follows is the same with and without `self`.
  have hafter (slots : List Slot) {own : List Instruction} {g : Frame} {w : State}
      (hown : Lowered p (.all (slots.map .load)) u.frame own g) (hlen' : own.length = slots.length)
      (hslots : slots = if p.selfCrosses n then [.self] else [])
      (hw : w.frame.drop own.length = u.frame) (h : Yields (after own) w c t) :
      Lowered p (.argument n) s.frame c t.frame := by
    have hcaptured : captured p n = (p.crossing n).map (fun d => .value d.id) ++ slots := by
      rw [captured, hslots]
    simp only [after] at h
    split at h
    · simp at h
    · rename_i hcount
      simp only [yields_bind, yields_get, yields_setFrame, yields_pure] at h
      obtain ⟨_, _, ⟨rfl, rfl⟩, -, _, rfl, body, v, hbody, -, _, rfl, rfl, rfl⟩ := h
      have hinner : (if withSelf = true then Slot.self :: inner else inner) = (captured p n).reverse := by
        rw [hcaptured, hslots]
        by_cases hself : p.selfCrosses n = true <;> simp [withSelf, inner, hself]
      have hk : (cs.length + own.length).toUInt16.toNat = (captured p n).length := by
        rw [hcaptured, Nat.toUInt16_eq, UInt16.toNat_ofNat_of_lt' (by simpa [UInt16.size] using hcount)]
        simp [hlen, hlen']
      have hloads : Lowered p (captures p n) s.frame (cs ++ own) g := by
        rw [captures, hcaptured, map_append, map_map]
        exact hcaptures hown
      have hlowered := ih.value hin hbody
      rw [hinner] at hlowered
      have houter : w.frame.drop (cs.length + own.length) = s.frame := by
        rw [Nat.add_comm, ← drop_drop, hw, hu, hlen]
        exact drop_left' (by simp)
      rw [houter]
      exact .lazy hn hk hloads hlowered
  split at h
  · rename_i hself
    simp only [yields_bind, yields_index, yields_push, yields_pure] at h
    obtain ⟨i, _, ⟨hi, rfl⟩, -, _, rfl, _, _, ⟨rfl, rfl⟩, h⟩ := h
    exact hafter [.self] (.all (.load hi) (.nothing _)) rfl (by rw [if_pos hself]) rfl h
  · rename_i hself
    simp only [yields_bind, yields_pure] at h
    obtain ⟨_, _, ⟨rfl, rfl⟩, h⟩ := h
    exact hafter [] (.nothing _) rfl (by rw [if_neg hself]) rfl h

def again (n receiver : Node) : Gen (List Instruction) := do
  let i ← index n .cascadeNotHeld (.value n.id)
  push receiver
  return [.loadLocal i]

theorem lowered_again (h : Yields (again n receiver) s c t) :
    Lowered p (.load (.value n.id)) s.frame c (.value n.id :: s.frame) ∧ t.frame.drop 1 = s.frame := by
  simp only [again, yields_bind, yields_index, yields_push, yields_pure] at h
  obtain ⟨i, _, ⟨hi, rfl⟩, -, _, rfl, rfl, rfl⟩ := h
  exact ⟨.load hi, rfl⟩

theorem Faithful.messages (ih : Faithful p fuel) {ms : List Node}
    (acc : Array (List Instruction)) {total : Nat} (hne : ms ≠ [])
    (hms : ∀ m ∈ ms, p.Has m) (htotal : acc.size + ms.length = total) (h : Yields (mapIdxM.go (fun i m => do
      let code ← sendIn p fuel m m (again n receiver)
      if i + 1 < total then
        drop 1
        return code ++ [.dropLocal 0]
      return code) ms acc) s cs t) :
    ∃ ds, cs = acc.toList ++ ds ∧ Lowered p (.messages n ms) s.frame ds.flatten t.frame := by
  induction ms generalizing s acc with
  | nil => contradiction
  | cons m ms ihms =>
    rw [mapIdxM.go] at h
    obtain ⟨c, u, hc, hrest⟩ := yields_bind.mp h
    obtain ⟨code, v, hcode, hc⟩ := yields_bind.mp hc
    obtain ⟨sel, before, load, x, y, hsel, rfl, hargs, hload, hv⟩ :=
      ih.send (hms m mem_cons_self) hcode fun ha => (lowered_again (p := p) ha).2
    have hload := (lowered_again (p := p) hload).1
    cases ms with
    | nil =>
      rw [if_neg (by simp at htotal; omega)] at hc
      obtain ⟨rfl, rfl⟩ := yields_pure.mp hc
      rw [mapIdxM.go] at hrest
      obtain ⟨rfl, rfl⟩ := yields_pure.mp hrest
      refine ⟨[_], Array.toList_push, ?_⟩
      rw [hv]
      simpa using Lowered.message hsel hargs hload
    | cons m' ms =>
      rw [if_pos (by simp at htotal; omega)] at hc
      simp only [yields_bind, yields_drop, yields_pure] at hc
      obtain ⟨-, _, rfl, rfl, rfl⟩ := hc
      have hframe : v.frame.drop 1 = s.frame := by rw [hv, drop_one, tail_cons]
      obtain ⟨ds, rfl, hl⟩ := ihms _ (cons_ne_nil m' ms)
        (fun x hx => hms x (mem_cons_of_mem m hx)) (by simp at htotal ⊢; omega) hrest
      rw [show ({ v with frame := v.frame.drop 1 } : State).frame = s.frame from hframe] at hl
      refine ⟨(before ++ load ++ [callFrom sel m] ++ [.dropLocal 0]) :: ds, by simp, ?_⟩
      simpa using Lowered.messages (.message hsel hargs hload) hl

theorem mem_cascaded (hn : p.Has n) (hm : m ∈ cascaded p n) : p.Has m ∧ m.shape.isMessage ∧ n.id < m.id := by
  obtain ⟨hmem, hs⟩ := mem_filter.mp hm
  obtain ⟨hhas, -, hlt, -⟩ := hn.child hmem
  exact ⟨hhas, hs, hlt⟩

theorem cascaded_ne_nil (hn : p.Has n) (hs : n.shape = .cascade) : cascaded p n ≠ [] := by
  obtain ⟨cs, ha, hc⟩ := hn.admits
  rw [hs] at ha
  cases ha with
  | leaf hl => cases hl
  | wrapsExpression hw => cases hw
  | wrapsSymbol hw => cases hw
  | @cascade e m ms he hm =>
    obtain ⟨ce, rest, -, hrest, hcs⟩ := forall₂_cons_right_iff.mp hc
    obtain ⟨cm, rest', hcm, -, rfl⟩ := forall₂_cons_right_iff.mp hrest
    refine ne_nil_of_mem (a := cm) (mem_filter.mpr ⟨by rw [hcs]; simp, ?_⟩)
    rw [hcm.shape_eq]
    exact hm m mem_cons_self

theorem dropDeclaration_under {r : Slot} (hr : r ≠ .value n.id) (hs : s.frame = r :: .value n.id :: f)
    (h : Yields (dropDeclaration at_ n) s c t) : c = [.dropLocal 1] ∧ t.frame = r :: f := by
  obtain ⟨i, hi, rfl, rfl⟩ := yields_dropDeclaration.mp h
  rw [hs] at hi
  have hone : i.toNat = 1 := index?_append [r] (by simpa using Ne.symm hr) hi
  obtain rfl : i = 1 := UInt16.toNat_inj.mp hone
  exact ⟨rfl, by rw [hone, hs]; rfl⟩

theorem Faithful.step_cascade (ih : Faithful p fuel) (hn : p.Has n)
    (hs : n.shape = .cascade) (h : Yields (cascadeIn p (fuel + 1) n) s c t) :
    Lowered p (.value n) s.frame c t.frame := by
  rw [cascadeIn] at h
  obtain ⟨e, _, hneed, h⟩ := yields_bind.mp h
  obtain ⟨he, rfl⟩ := yields_need.mp hneed
  obtain ⟨code, u, hyields, h⟩ := yields_bind.mp h
  obtain ⟨r, hu, -, hcode⟩ := ih.grown hn he hyields
  obtain ⟨_, v, hname, h⟩ := yields_bind.mp h
  have hv : v.frame = .value n.id :: s.frame := by rw [← yields_nameTop.mp hname, hu]; rfl
  have hne := cascaded_ne_nil hn hs
  rw [if_neg (by simpa [cascaded] using hne)] at h
  simp only [yields_bind, yields_nameTop, yields_pure] at h
  obtain ⟨sends, w, hsends, last, x, hlast, -, _, rfl, rfl, rfl⟩ := h
  obtain ⟨ds, hds, hlow⟩ := ih.messages #[] hne (fun m hm => (mem_cascaded hn hm).1)
    (by simp [cascaded]) hsends
  obtain rfl : sends = ds := by simpa using hds
  obtain ⟨m, hlt, hw⟩ : ∃ m : Node, n.id < m.id ∧ w.frame = .value m.id :: v.frame := by
    generalize hg : w.frame = g at hlow
    cases hlow.grows (.messages fun m hm => mem_cascaded hn hm) with
    | messages _ hm => exact ⟨_, (mem_cascaded hn hm).2.2, rfl⟩
  rw [hv] at hw hlow
  obtain ⟨rfl, hx⟩ := dropDeclaration_under (by simp; omega) hw hlast
  rw [hw] at hlow
  rw [show x.frame.drop 1 = s.frame by rw [hx]; rfl]
  exact .cascade hs he hcode hlow

theorem Faithful.step_let (ih : Faithful p fuel) (hn : p.Has n)
    (hs : n.shape = .letExpression) (h : Yields (letIn p (fuel + 1) n) s c t) :
    Lowered p (.value n) s.frame c t.frame := by
  rw [letIn] at h
  simp only [yields_bind, yields_need, yields_nameTop, yields_pure] at h
  obtain ⟨b, _, ⟨hb, rfl⟩, e, _, ⟨he, rfl⟩, v, _, ⟨hv, rfl⟩, before, u, hbefore, -, _, rfl, code, w, hcode,
    last, x, hlast, -, _, rfl, rfl, rfl⟩ := h
  have hbhas := hn.part hb
  obtain ⟨r, hu, -, hbefore⟩ := ih.grown hbhas hv hbefore
  obtain ⟨r', hw, hres, hcode⟩ := ih.grown hn he hcode
  have hunder : u.frame.drop 1 = s.frame := by rw [hu]; rfl
  simp only [hunder] at hw hcode
  have hbs : b.shape = .letBinding := by simpa using (Forest.part?_mem hb).2
  have hne := ne_declaration_of_isResult hres hbhas (by rw [hbs]; rfl) (by rw [hbs]; rfl)
  obtain ⟨rfl, hx⟩ := dropDeclaration_under hne hw hlast
  rw [show x.frame.drop 1 = s.frame by rw [hx]; rfl]
  exact .let_ hs hb he hv hbefore hcode

theorem Faithful.step_value (ih : Faithful p fuel)
    (hin : (Part.value n).In p) (h : Yields (expressionIn p (fuel + 1) n) s c t) :
    Lowered p (.value n) s.frame c t.frame := by
  have hn : p.Has n := by cases hin; assumption
  rw [expressionIn] at h
  split at h
  · rename_i hs
    simp only [yields_bind, yields_index, yields_push, yields_pure] at h
    obtain ⟨i, _, ⟨hi, rfl⟩, -, _, rfl, rfl, rfl⟩ := h
    exact .self hs (.load hi)
  · exact lowered_reference (by assumption) h
  · rename_i hs
    simp only [yields_bind, yields_need] at h
    obtain ⟨e, _, ⟨he, rfl⟩, h⟩ := h
    exact .tuple hs he (ih.value (in_value hn he).1 h)
  · rename_i hs
    simp only [yields_bind, yields_need] at h
    obtain ⟨e, _, ⟨he, rfl⟩, m, _, ⟨hm, rfl⟩, h⟩ := h
    obtain ⟨sel, before, code, u, v, hsel, rfl, hargs, hcode, ht⟩ := ih.send (hn.part hm) h fun hc => by
      obtain ⟨r, hr, -⟩ := ih.grown hn he hc
      rw [hr]
      rfl
    rw [ht]
    exact .send hs he hm hsel hargs (ih.value (in_value hn he).1 hcode)
  · exact ih.cascade hn (by assumption) h
  · exact ih.let_ hn (by assumption) h
  · rename_i hs
    simp only [yields_bind, yields_need, yields_nameTop, yields_pure] at h
    obtain ⟨e, _, ⟨he, rfl⟩, code, u, hcode, -, _, rfl, rfl, rfl⟩ := h
    obtain ⟨r, hu, -, hcode⟩ := ih.grown hn he hcode
    rw [show u.frame.drop 1 = s.frame by rw [hu]; rfl]
    exact .panic hs he hcode
  · exact lowered_fixed (.string (by assumption)) h
  · exact lowered_fixed (.character (by assumption)) h
  · exact lowered_fixed (.symbol (by assumption)) h
  · obtain ⟨i, u, hi, h⟩ := yields_bind.mp h
    rw [← (integer_code hi).2]
    exact lowered_fixed (.integer (by assumption) hi) h
  · obtain ⟨i, u, hi, h⟩ := yields_bind.mp h
    rw [← (float_code hi).2]
    exact lowered_fixed (.float (by assumption) hi) h
  · simp at h

theorem faithful (p : Program) (fuel : Nat) : Faithful p fuel := by
  induction fuel with
  | zero => exact faithful_zero p
  | succ fuel ih => exact ⟨ih.step_value, ih.step_lazy, ih.step_send, ih.step_cascade, ih.step_let⟩

theorem lowered_expression (hin : (Part.value n).In p)
    (h : Yields (expression p n) s c t) : Lowered p (.value n) s.frame c t.frame :=
  (faithful p _).value hin h

end Parlance.Lowering
