import Mathlib.Algebra.Group.Nat.Defs
import Parlance.Proofs.ClassTables
import Parlance.Proofs.DeclarationOrder
/-!
The method that a class holds for a selector is the one that its behaviours name. From partial classes nothing
is taken.
-/
namespace Parlance.Lowering

open List

variable {d k m c : Node} {hash i source : UInt64} {α : Type} {code : List Instruction} {bs : List Behaviour}
  {as : List α}

open Machine (Decl Table Changes ChangesAll Method)

variable {p : Program} {base last : Memo} {n : Node} {cs : List (List Instruction)} {w : Machine.State}

/-! ### Numbers of classes -/

theorem toNat_handle (hn : p.Has n) (hsize : p.nodes.size < 2 ^ 63) : (handle n).toNat = n.id + 1 := by
  have := hn.lt_size
  grind [handle, UInt64.toNat_ofNat_of_lt']

theorem handle_inj (hc : p.Has c) (hd : p.Has d) (hsize : p.nodes.size < 2 ^ 63) (h : handle c = handle d) : c = d := by
  have hid := congrArg UInt64.toNat h
  rw [toNat_handle hc hsize, toNat_handle hd hsize] at hid
  exact hc.eq_of_id hd (by omega)

theorem handle_ne_classObjectId (hc : p.Has c) (hsize : p.nodes.size < 2 ^ 63) (id : UInt64) :
    handle c ≠ Instruction.classObjectId id := by
  intro h
  have hid := congrArg UInt64.toNat h
  rw [toNat_handle hc hsize, Instruction.classObjectId, UInt64.toNat_or] at hid
  have hlt := hc.lt_size
  grind [Nat.right_le_or]

/-! ### What declarations change -/

section

variable {t u : Table} {ds : List Decl} {ms : List Node}

def IsQuiet : Decl → Prop
  | .cls .. | .mark .. => True
  | _ => False

theorem holds_quiet (h : ChangesAll ds t u) (hds : ∀ d ∈ ds, IsQuiet d) : u.holds = t.holds := by
  induction h with
  | nil => rfl
  | cons h _ ih =>
    obtain ⟨hd, hds⟩ := forall_mem_cons.mp hds
    rw [ih hds]
    cases h with
    | cls | mark => rfl
    | _ => cases hd

def IsAccessor (p : Program) (v : Node) (hash : UInt64) : Prop :=
  ∃ name, p.nameOf? v = some name ∧ (hash = hashOf name ∨ hash = hashOf (name ++ ":"))

def IsField (p : Program) (v : Node) (d : Decl) : Prop :=
  ∃ name, p.nameOf? v = some name ∧ d = .field (handle v) (Bytes.ofString name)

def IsLowered (p : Program) (base : Memo) (m : Node) (hash : UInt64) (name : Bytes) (body : List Instruction) : Prop :=
  ∃ s t, p.Since base s.memo ∧ Yields (method p m) s (.beginMethod hash name :: (body ++ [.endMethod])) t

def IsMethod (p : Program) (base : Memo) (m : Node) (d : Decl) : Prop :=
  ∃ sel name body, p.methodSelector? m = some sel ∧ d = .method (hashOf sel) name body ∧
    IsLowered p base m (hashOf sel) name body

theorem holds_fields {vs : List Node} {c : UInt64} (hvs : List.Forall₂ (IsField p) vs ds) (h : ChangesAll ds t u)
    (hc : t.declaring = some c) : u.declaring = some c ∧
      ∀ i hash, i ≠ c ∨ (∀ v ∈ vs, ¬ IsAccessor p v hash) → u.holds i hash = t.holds i hash := by
  induction hvs generalizing t with
  | nil =>
    cases h
    exact ⟨hc, fun _ _ _ => rfl⟩
  | @cons v d vs ds hv _ ih =>
    obtain ⟨name, hname, rfl⟩ := hv
    cases h with
    | cons h hs =>
      cases h with
      | field _ _ hfield getter setter =>
        obtain rfl := Option.some.inj (hfield.symm.trans hc)
        obtain ⟨hu, hholds⟩ := ih hs hc
        refine ⟨hu, fun i hash hnot => ?_⟩
        have hother : i ≠ _ ∨ ¬ IsAccessor p v hash := hnot.imp_right fun h => h v mem_cons_self
        rw [hholds i hash (hnot.imp_right fun h w hw => h w (mem_cons_of_mem v hw)), ← ofString_append_colon,
          Table.holds_put_of_ne, Table.holds_put_of_ne]
        · exact hother.imp_right fun h heq => h ⟨name, hname, .inl heq⟩
        · exact hother.imp_right fun h heq => h ⟨name, hname, .inr heq⟩

def HoldsOwn (p : Program) (base : Memo) (c : UInt64) (ms : List Node) (u : Table) (hash : UInt64) : Prop :=
  ∃ m ∈ ms, ∃ sel name body, p.methodSelector? m = some sel ∧ hashOf sel = hash ∧
    IsLowered p base m hash name body ∧ u.holds c hash = some ⟨name, .code body⟩

def NoneOf (p : Program) (ms : List Node) (hash : UInt64) : Prop :=
  ∀ m ∈ ms, ∀ sel, p.methodSelector? m = some sel → hashOf sel ≠ hash

/-- Of the methods of a class the last one with a hash is held; other hashes are left alone. -/
theorem holds_methods {c : UInt64} (hms : List.Forall₂ (IsMethod p base) ms ds)
    (h : ChangesAll ds t u) (hc : t.declaring = some c) : (∀ i hash, i ≠ c → u.holds i hash = t.holds i hash) ∧
      ∀ hash, HoldsOwn p base c ms u hash ∨ NoneOf p ms hash ∧ u.holds c hash = t.holds c hash := by
  induction hms generalizing t with
  | nil =>
    cases h
    exact ⟨fun _ _ _ => rfl, fun _ => .inr ⟨fun _ h => absurd h List.not_mem_nil, rfl⟩⟩
  | @cons m d ms ds hm _ ih =>
    obtain ⟨sel, name, body, hsel, rfl, hlow⟩ := hm
    cases h with
    | cons h hs =>
      cases h with
      | method _ _ _ hmethod =>
        obtain rfl := Option.some.inj (hmethod.symm.trans hc)
        obtain ⟨hframe, hown⟩ := ih hs hc
        refine ⟨fun i hash hi => ?_, fun hash => ?_⟩
        · rw [hframe i hash hi, Table.holds_put_of_ne _ _ (.inl hi)]
        · rcases hown hash with ⟨m', hm', h⟩ | ⟨hnone, hsame⟩
          · exact .inl ⟨m', mem_cons_of_mem m hm', h⟩
          · by_cases heq : hashOf sel = hash
            · subst heq
              exact .inl ⟨m, mem_cons_self, sel, name, body, hsel, rfl, hlow, by rw [hsame]; simp⟩
            · refine .inr ⟨fun m' hm' sel' hsel' => ?_, ?_⟩
              · rcases mem_cons.mp hm' with rfl | hm'
                · grind
                · exact hnone m' hm' sel' hsel'
              · grind [Table.holds_put_of_ne]

def IsInitializer (p : Program) (i : Node) (d : Decl) : Prop :=
  ∃ sel name body, p.initializerSelector? i = some sel ∧ d = .method (hashOf sel) name body

/-- The declarations for the class itself that stand behind those for its values. -/
inductive IsAside (p : Program) (c : Node) : List Decl → Prop where
  | nil (h : p.initializers c = []) : IsAside p c []
  | classObject (name : Bytes) {ds : List Decl} (hds : List.Forall₂ (IsInitializer p) (p.initializers c) ds) :
    IsAside p c (.cls (Instruction.classObjectId (handle c)) name :: ds)

theorem holds_added (hds : ∀ d ∈ ds, ∃ hash name body, d = .method hash name body) (h : ChangesAll ds t u)
    {c : UInt64} (hc : t.declaring = some c) (hi : i ≠ c) (hash : UInt64) : u.holds i hash = t.holds i hash := by
  induction h with
  | nil => rfl
  | cons h _ ih =>
    obtain ⟨⟨_, _, _, rfl⟩, hrest⟩ := forall_mem_cons.mp hds
    cases h with
    | method _ _ _ hmethod =>
      obtain rfl := Option.some.inj (hmethod.symm.trans hc)
      rw [ih hrest hc, Table.holds_put_of_ne _ _ (.inl hi)]

theorem holds_aside (hds : IsAside p c ds) (h : ChangesAll ds t u)
    (hi : i ≠ Instruction.classObjectId (handle c)) (hash : UInt64) : u.holds i hash = t.holds i hash := by
  cases hds with
  | nil =>
    cases h
    rfl
  | classObject name hds =>
    cases h with
    | cons h hs =>
      cases h with
      | cls =>
        refine holds_added (fun d hd => ?_) hs rfl hi hash
        obtain ⟨-, -, sel, name, body, -, rfl⟩ := Forest.exists_of_mem hds.flip hd
        exact ⟨_, name, body, rfl⟩

inductive MembersOf (p : Program) (base : Memo) (c : Node) : List Decl → Prop where
  | mk (name : Bytes) {fields methods aside : List Decl}
    (hfields : List.Forall₂ (IsField p) (p.memberVariables c) fields)
    (hmethods : List.Forall₂ (IsMethod p base) (p.methods c) methods) (haside : IsAside p c aside) :
    MembersOf p base c (.cls (handle c) name :: (fields ++ (methods ++ aside)))

def NoAccessor (p : Program) (c : Node) (hash : UInt64) : Prop := ∀ v ∈ p.memberVariables c, ¬ IsAccessor p v hash

/-- What a class holds under a hash once its members are declared: one of its own methods if there is one, else
what it held before, unless that is an accessor. -/
def Settled (p : Program) (base : Memo) (c : Node) (hash : UInt64) (t u : Table) : Prop :=
  HoldsOwn p base (handle c) (p.methods c) u hash ∨
    NoneOf p (p.methods c) hash ∧ (NoAccessor p c hash → u.holds (handle c) hash = t.holds (handle c) hash)

theorem HoldsOwn.not_noneOf {c : UInt64} (h : HoldsOwn p base c ms u hash) : ¬ NoneOf p ms hash := fun hnone =>
  let ⟨m, hm, sel, _, _, hsel, heq, _⟩ := h
  hnone m hm sel hsel heq

theorem settled_members (hc : p.Has c) (hsize : p.nodes.size < 2 ^ 63) (hds : MembersOf p base c ds)
    (h : ChangesAll ds t u) (hash : UInt64) : Settled p base c hash t u ∧
      ∀ d, p.Has d → d ≠ c → u.holds (handle d) hash = t.holds (handle d) hash := by
  obtain ⟨name, hfields, hmethods, haside⟩ := hds
  cases h with
  | cons h hs =>
    cases h with
    | cls =>
      obtain ⟨v, hv, hs⟩ := Machine.changesAll_append.mp hs
      obtain ⟨w, hw, hs⟩ := Machine.changesAll_append.mp hs
      obtain ⟨hdecl, hholds⟩ := holds_fields hfields hv rfl
      obtain ⟨hframe, hown⟩ := holds_methods hmethods hw hdecl
      have hlast {d : Node} (hd : p.Has d) : u.holds (handle d) hash = w.holds (handle d) hash :=
        holds_aside haside hs (handle_ne_classObjectId hd hsize _) hash
      constructor
      · rcases hown hash with ⟨m, hm, sel, name, body, hsel, heq, hlow, hheld⟩ | ⟨hnone, hsame⟩
        · exact .inl ⟨m, hm, sel, name, body, hsel, heq, hlow, (hlast hc).trans hheld⟩
        · refine .inr ⟨hnone, fun hacc => ?_⟩
          rw [hlast hc, hsame, hholds _ _ (.inr hacc)]
      · grind [handle_inj]

/-- Once the members of all classes are declared, each class has settled, and the others are as they were. -/
theorem settled_classes {cs : List Node} {dss : List (List Decl)} (hcs : ∀ c ∈ cs, p.Has c)
    (hsize : p.nodes.size < 2 ^ 63) (hds : List.Forall₂ (MembersOf p base) cs dss)
    (h : ChangesAll dss.flatten t u) (hash : UInt64) (hd : p.Has d) :
    (d ∈ cs → Settled p base d hash t u) ∧ (d ∉ cs → u.holds (handle d) hash = t.holds (handle d) hash) := by
  induction hds generalizing t with
  | nil =>
    cases h
    grind
  | @cons c ds cs dss hc _ ih =>
    obtain ⟨hhas, hcs⟩ := forall_mem_cons.mp hcs
    obtain ⟨v, hv, hu⟩ := Machine.changesAll_append.mp h
    obtain ⟨hsettled, hothers⟩ := settled_members hhas hsize hc hv hash
    obtain ⟨hin, hout⟩ := ih hcs hu
    grind [Settled, HoldsOwn]

def IsInherit (d : Decl) : Prop := ∃ source target hash, d = .inherit source target hash

theorem holds_inherits (hds : ∀ d ∈ ds, IsInherit d)
    (h : ChangesAll ds t u) {m : Method} (hm : t.holds i hash = some m) : u.holds i hash = some m := by
  induction h with
  | nil => exact hm
  | cons h _ ih =>
    obtain ⟨⟨source, target, hash', rfl⟩, hrest⟩ := forall_mem_cons.mp hds
    cases h with
    | inherit hm' hno => grind [Table.holds_put_of_ne]
    | keep => exact ih hrest hm

theorem holds_of_no_inherit (hds : ∀ d ∈ ds, IsInherit d)
    (h : ChangesAll ds t u) (hno : ∀ source, .inherit source i hash ∉ ds) : u.holds i hash = t.holds i hash := by
  induction h with
  | nil => rfl
  | cons h _ ih =>
    obtain ⟨⟨source, target, hash', rfl⟩, hrest⟩ := forall_mem_cons.mp hds
    have hne : i ≠ target ∨ hash ≠ hash' := by
      by_contra hboth
      obtain ⟨rfl, rfl⟩ : i = target ∧ hash = hash' := by simpa using hboth
      exact hno source mem_cons_self
    rw [ih hrest fun source hmem => hno source (mem_cons_of_mem _ hmem)]
    cases h with
    | inherit => exact Table.holds_put_of_ne _ _ hne
    | keep => rfl

/-- A class that holds nothing under a hash ends up with what the only class it inherits from has there. -/
theorem holds_of_inherit (hds : ∀ d ∈ ds, IsInherit d) (h : ChangesAll ds t u) (hmem : .inherit source i hash ∈ ds)
    (honly : ∀ src, .inherit src i hash ∈ ds → src = source) (hnone : t.holds i hash = none) :
    ∃ m, u.holds i hash = some m ∧ u.holds source hash = some m := by
  induction h with
  | nil => cases hmem
  | @cons d ds t v u h hs ih =>
    obtain ⟨⟨src, target, hash', rfl⟩, hrest⟩ := forall_mem_cons.mp hds
    by_cases hlink : i = target ∧ hash = hash'
    · obtain ⟨rfl, rfl⟩ := hlink
      obtain rfl := honly src mem_cons_self
      cases h with
      | @inherit _ _ _ _ m hm _ =>
        grind [holds_inherits, Table.holds_put_self, Table.holds_put_of_ne]
      | keep hm =>
        rw [hnone] at hm
        cases hm
    · have htail : Decl.inherit source i hash ∈ ds := by
        refine (mem_cons.mp hmem).resolve_left fun heq => hlink ?_
        cases heq
        exact ⟨rfl, rfl⟩
      refine ih hrest htail (fun src h => honly src (mem_cons_of_mem _ h)) ?_
      cases h with
      | inherit => rw [Table.holds_put_of_ne _ _ (not_and_or.mp hlink), hnone]
      | keep => exact hnone

end

/-! ### The declarations in the code of a program -/

def IsDecls (ds : List Decl) (code : List Instruction) : Prop :=
  (∀ d ∈ ds, d.IsClosed) ∧ code = ds.flatMap Decl.code

theorem IsDecls.append {ds es : List Decl} {c k : List Instruction} (h : IsDecls ds c) (hs : IsDecls es k) :
    IsDecls (ds ++ es) (c ++ k) := by
  obtain ⟨hds, rfl⟩ := h
  obtain ⟨hes, rfl⟩ := hs
  exact ⟨forall_mem_append.mpr ⟨hds, hes⟩, by rw [flatMap_append]⟩

theorem isDecls_flatten {R : α → List Instruction → Prop} {Q : α → List Decl → Prop}
    (h : List.Forall₂ R as cs) (hR : ∀ a ∈ as, ∀ c, R a c → ∃ ds, Q a ds ∧ IsDecls ds c) :
    ∃ dss, List.Forall₂ Q as dss ∧ IsDecls dss.flatten cs.flatten := by
  induction h with
  | nil => exact ⟨[], .nil, nofun, rfl⟩
  | cons h _ ih =>
    obtain ⟨hhead, htail⟩ := forall_mem_cons.mp hR
    obtain ⟨ds, hds, hd⟩ := hhead _ h
    obtain ⟨dss, hdss, hall⟩ := ih htail
    exact ⟨ds :: dss, .cons hds hdss, hd.append hall⟩

theorem isDecls_map {R : α → List Instruction → Prop} {Q : α → Decl → Prop}
    (h : List.Forall₂ R as cs) (hR : ∀ a ∈ as, ∀ c, R a c → ∃ d, Q a d ∧ d.IsClosed ∧ d.code = c) :
    ∃ ds, List.Forall₂ Q as ds ∧ IsDecls ds cs.flatten := by
  obtain ⟨dss, hdss, hall⟩ := isDecls_flatten (Q := fun a ds => ∃ d, Q a d ∧ ds = [d]) h fun a ha c hc => by
    obtain ⟨d, hd, hclosed, rfl⟩ := hR a ha c hc
    exact ⟨[d], ⟨d, hd, rfl⟩, forall_mem_singleton.mpr hclosed, (append_nil _).symm⟩
  refine ⟨dss.flatten, ?_, hall⟩
  clear h hR hall
  induction hdss with
  | nil => exact .nil
  | cons hd _ ih =>
    obtain ⟨d, hd, rfl⟩ := hd
    exact .cons hd ih

theorem isDecls_singles {R : α → Instruction → Prop} {Q : α → Decl → Prop}
    {is : List Instruction} (h : List.Forall₂ R as is)
    (hR : ∀ a ∈ as, ∀ i, R a i → ∃ d, Q a d ∧ d.IsClosed ∧ d.code = [i]) :
    ∃ ds, List.Forall₂ Q as ds ∧ IsDecls ds is := by
  have hmap : List.Forall₂ (fun a c => ∃ i, R a i ∧ c = [i]) as (is.map ([·])) :=
    forall₂_map_right_iff.mpr (h.imp fun _ i h => ⟨i, h, rfl⟩)
  obtain ⟨ds, hds, hall⟩ := isDecls_map hmap fun a ha c hc => by
    obtain ⟨i, hi, rfl⟩ := hc
    exact hR a ha i hi
  grind [flatMap_singleton']

theorem isDecls_classHead (h : Traced p base last (classHead p) c code) :
    ∃ ds, (∀ d ∈ ds, IsQuiet d) ∧ IsDecls ds code := by
  obtain ⟨u, v, -, h, -⟩ := h
  obtain ⟨name, marks, hmarks, hcode⟩ := classHead_code h
  have hsingle : ∀ i ∈ code, ∃ d, IsQuiet d ∧ d.IsClosed ∧ d.code = [i] := by
    rw [hcode]
    refine forall_mem_cons.mpr ⟨⟨.cls .., trivial, trivial, rfl⟩, forall_mem_append.mpr ⟨fun i hi => ?_, ?_⟩⟩
    · obtain ⟨m, rfl⟩ := hmarks i hi
      exact ⟨.mark .., trivial, trivial, rfl⟩
    · split
      · exact forall_mem_singleton.mpr ⟨.cls .., trivial, trivial, rfl⟩
      · exact fun _ h => absurd h List.not_mem_nil
  obtain ⟨ds, hds, hall⟩ := isDecls_singles (Q := fun _ d => IsQuiet d) (forall₂_same.mpr fun i _ => rfl)
    fun i hi j hj => hj ▸ hsingle i hi
  exact ⟨ds, fun d hd => (Forest.exists_of_mem hds.flip hd).elim fun _ h => h.2, hall⟩

theorem isDecls_method (hp : p.Grown) (hm : p.Has m)
    (h : Traced p base last (method p) m code) : ∃ d, IsMethod p base m d ∧ d.IsClosed ∧ d.code = code := by
  obtain ⟨u, v, hu, h, -⟩ := h
  obtain ⟨sel, body, hsel, hb, rfl⟩ := method_code hp hm h
  exact ⟨.method (hashOf sel) _ body, ⟨sel, _, body, hsel, rfl, u, v, hu, h⟩, fun i hi => (hb.asks hp i hi).isEnd, rfl⟩

theorem isDecls_classMembers (hp : p.Grown) (hc : p.Has c)
    (hs : c.shape = .classNode false) (h : Traced p base last (classMembers p) c code) :
    ∃ ds, MembersOf p base c ds ∧ IsDecls ds code := by
  obtain ⟨u, v, hu, h, -⟩ := h
  rw [classMembers] at h
  obtain ⟨held, w, hheld, h⟩ := yields_bind.mp h
  obtain ⟨methods, x, hmethods, h⟩ := yields_bind.mp h
  obtain ⟨hheld, hw⟩ := traced_mapM (fun v _ => .need fun _ _ => .pure _) hu hheld
  obtain ⟨hmethods, hx⟩ := traced_mapM (fun m hm => recalls_method hp (hc.mem_methods hm).1) hw hmethods
  obtain ⟨fields, hfields, hheld⟩ := isDecls_singles (Q := IsField p) hheld fun v _ i hi => by
    obtain ⟨_, _, -, hi, -⟩ := hi
    simp only [yields_bind, yields_need, yields_pure] at hi
    obtain ⟨name, _, ⟨hname, -⟩, rfl, -⟩ := hi
    exact ⟨.field .., ⟨name, hname, rfl⟩, trivial, rfl⟩
  obtain ⟨own, hown, hmethods⟩ := isDecls_map hmethods fun m hm c h => isDecls_method hp (hc.mem_methods hm).1 h
  have hcls (id : UInt64) (name : Bytes) : IsDecls [.cls id name] [.declareClass id name] :=
    ⟨forall_mem_singleton.mpr trivial, rfl⟩
  split at h
  · rename_i hnone
    obtain ⟨rfl, -⟩ := yields_pure.mp h
    refine ⟨_, .mk (Bytes.ofString ((p.nameOf? c).getD "")) hfields hown
      (.nil (by simpa [Forest.hasClassObject] using hnone)), ?_⟩
    simpa [declare] using (hcls _ _).append (hheld.append hmethods)
  · obtain ⟨initializers, y, hinitializers, h⟩ := yields_bind.mp h
    obtain ⟨rfl, -⟩ := yields_pure.mp h
    obtain ⟨hinitializers, -⟩ := traced_mapM (fun i hi =>
      recalls_initializer hp c (hc.mem_members (mem_filter.mp hi).1)) hx hinitializers
    obtain ⟨aside, haside, hinitializers⟩ := isDecls_map (Q := IsInitializer p) hinitializers fun i hi code h => by
      obtain ⟨_, _, -, h, -⟩ := h
      obtain ⟨sel, body, hsel, hb, rfl⟩ := initializer_code hc hs (hc.mem_members (mem_filter.mp hi).1) h
      exact ⟨.method (hashOf sel) _ body, ⟨sel, _, body, hsel, rfl⟩, fun i hi => (hb.asks hp i hi).isEnd, rfl⟩
    refine ⟨_, .mk (Bytes.ofString ((p.nameOf? c).getD "")) hfields hown
      (.classObject (Bytes.ofString ((p.nameOf? c).getD "" ++ " class")) haside), ?_⟩
    simpa [declare, declareClassObject] using
      (hcls _ _).append (hheld.append (hmethods.append ((hcls _ _).append hinitializers)))

def IsLink (i : Instruction) (d : Decl) : Prop :=
  ∃ source target hash, i = .inheritMethod source target hash ∧ d = .inherit source target hash

/-- The declarations of what a class inherits, by the behaviours that are remembered of it. -/
def LinksOf (p : Program) (last : Memo) (c : Node) (ds : List Decl) : Prop :=
  ∃ bs, p.IsAnswer c bs ∧ last.behaviours[c.id]? = some (some bs) ∧ List.Forall₂ IsLink (bs.filterMap (link p c)) ds

theorem link_eq_some {b : Behaviour} {i : Instruction} (h : link p c b = some i) :
    ∃ m k, p.node? b.method = some m ∧ p.closestClass? m = some k ∧ k.id ≠ c.id ∧ k.shape ≠ .classNode true ∧
      i = .inheritMethod (handle k) (handle c) (hashOf b.selector) := by
  grind [link, Option.bind_eq_some_iff]

theorem isDecls_inheritLinks (hp : p.Grown) (hc : p.Has c)
    (hs : c.shape.isClass) (h : Traced p base last (inheritLinks p) c code) :
    ∃ ds, LinksOf p last c ds ∧ IsDecls ds code := by
  obtain ⟨bs, hbs, hlast, rfl⟩ := links_code hp hc hs h
  obtain ⟨ds, hds, hall⟩ := isDecls_singles (Q := IsLink) (forall₂_same.mpr fun i _ => rfl) fun i hi j hj => by
    obtain ⟨b, -, hb⟩ := mem_filterMap.mp hi
    obtain ⟨-, k, -, -, -, -, rfl⟩ := link_eq_some hb
    obtain rfl : _ = j := hj
    exact ⟨.inherit .., ⟨_, _, _, rfl, rfl⟩, trivial, rfl⟩
  exact ⟨ds, ⟨bs, hbs, hlast, hds⟩, hall⟩

/-- Declarations of classes: the classes, then their members, then what they inherit. -/
inductive ClassDecls (p : Program) (base last : Memo) (cs : List Node) : List Decl → Prop where
  | mk {heads : List Decl} {members links : List (List Decl)} (hheads : ∀ d ∈ heads, IsQuiet d)
    (hmembers : List.Forall₂ (MembersOf p base) cs members) (hlinks : List.Forall₂ (LinksOf p last) cs links) :
    ClassDecls p base last cs (heads ++ (members.flatten ++ links.flatten))

theorem isBinding_globalBinding (hp : p.Grown) (hn : p.Has n)
    (h : Traced p base last (globalBinding p) n code) : ∀ i ∈ code, Machine.IsBinding i := by
  obtain ⟨u, v, -, h, -⟩ := h
  simp only [globalBinding, yields_bind, yields_need, yields_pure, yields_setFrame, yields_drop] at h
  obtain ⟨e, _, ⟨he, rfl⟩, -, _, rfl, code, w, hcode, -, _, rfl, rfl, rfl⟩ := h
  have hin := (in_value hn he).1
  refine forall_mem_append.mpr ⟨fun i hi => ?_, forall_mem_singleton.mpr (.inr ⟨handle n, rfl⟩)⟩
  obtain ⟨⟨hinner, -⟩, hret⟩ := (lowered_expression hin hcode).asks hp hin i hi
  exact .inl ⟨hinner, hret⟩

theorem DeclaredBy.decls (hp : p.Grown) {ds : List Node} (hds : ∀ d ∈ ds, p.Has d)
    (h : DeclaredBy p base last ds code) : ∃ es c b, ClassDecls p base last (classesOf ds) es ∧ IsDecls es c ∧
      (∀ i ∈ b, Machine.IsBinding i) ∧ code = c ++ b := by
  obtain ⟨hheads, hmembers, hlinks, hbindings⟩ := h
  rename_i bindings
  have hclass {d : Node} (hd : d ∈ classesOf ds) : p.Has d ∧ d.shape = .classNode false :=
    (mem_classesOf.mp hd).imp_left (hds d)
  obtain ⟨quiet, hquiet, hheads⟩ := isDecls_flatten (Q := fun _ ds => ∀ d ∈ ds, IsQuiet d) hheads
    fun c _ code h => isDecls_classHead h
  obtain ⟨members, hmembers', hmembers⟩ := isDecls_flatten hmembers fun c hc code h =>
    isDecls_classMembers hp (hclass hc).1 (hclass hc).2 h
  obtain ⟨links, hlinks', hlinks⟩ := isDecls_flatten hlinks fun c hc code h =>
    isDecls_inheritLinks hp (hclass hc).1 (by rw [(hclass hc).2]; rfl) h
  refine ⟨_, _, bindings.flatten, .mk (fun d hd => ?_) hmembers' hlinks', hheads.append (hmembers.append hlinks),
    fun i hi => ?_, by simp⟩
  · obtain ⟨es, hes, hd⟩ := mem_flatten.mp hd
    obtain ⟨-, -, hes⟩ := Forest.exists_of_mem hquiet.flip hes
    exact hes d hd
  · obtain ⟨c, hc, hi⟩ := mem_flatten.mp hi
    obtain ⟨n, hn, h⟩ := Forest.exists_of_mem hbindings.flip hc
    exact isBinding_globalBinding hp (hds n (mem_filter.mp hn).1) h i hi

/-! ### What the types name and what classes hold -/

def DeclaredOnce (p : Program) (s : String) : Prop :=
  ∀ k, p.Has k → ∀ m ∈ p.methods k, ∀ n ∈ p.methods k,
    p.methodSelector? m = some s → p.methodSelector? n = some s → m = n

/-- What a class holds for a selector is the method with this number: the code that was made of it, unless the
class that declares it is partial. If there is no number it holds nothing. -/
def Agrees (p : Program) (base : Memo) (t : Table) (c : Node) (s : String) : Option Nat → Prop
  | none => t.holds (handle c) (hashOf s) = none
  | some id => ∃ k m, p.Has k ∧ m ∈ p.methods k ∧ m.id = id ∧ p.methodSelector? m = some s ∧
    (k.shape = .classNode true → t.holds (handle c) (hashOf s) = none) ∧
    (k.shape ≠ .classNode true → ∃ name body, IsLowered p base m (hashOf s) name body ∧
      t.holds (handle c) (hashOf s) = some ⟨name, .code body⟩)

def Unmistakable (p : Program) (s : String) : Prop := ∀ a ∈ p.selectors, hashOf a = hashOf s → a = s

section

variable {cs : List Node} {ds : List Decl} {u : Table} {c : Node} {s : String} {links : List (List Decl)}

theorem selector_of_hash (hp : p.Grown) (hs : Unmistakable p s) {sel : String} (hk : p.Has k)
    (hm : m ∈ p.methods k) (hsel : p.methodSelector? m = some sel) (heq : hashOf sel = hashOf s) : sel = s := by
  obtain ⟨-, -, q, hq, hqsel⟩ := (hk.mem_methods hm).1.member (.inl hsel)
  exact hs sel (hp.sown.mem_selectors hq (Forest.mem_selectorsAt hqsel)) heq

theorem HoldsOwn.unique (hp : p.Grown) (hs : Unmistakable p s) (honce : DeclaredOnce p s)
    (hk : p.Has k) (hm : m ∈ p.methods k) (hsel : p.methodSelector? m = some s)
    (h : HoldsOwn p base (handle k) (p.methods k) u (hashOf s)) :
    ∃ name body, IsLowered p base m (hashOf s) name body ∧ u.holds (handle k) (hashOf s) = some ⟨name, .code body⟩ := by
  obtain ⟨n, hn, sel, name, body, hnsel, heq, hlow, hheld⟩ := h
  obtain rfl := selector_of_hash hp hs hk hn hnsel heq
  obtain rfl := honce k hk m hm n hn hsel hnsel
  exact ⟨name, body, hlow, hheld⟩

theorem isInherit_of_links (h : List.Forall₂ (LinksOf p last) cs links) : ∀ d ∈ links.flatten, IsInherit d := by
  intro d hd
  obtain ⟨ds, hds, hd⟩ := mem_flatten.mp hd
  obtain ⟨c, -, bs, -, -, hlinks⟩ := Forest.exists_of_mem h.flip hds
  obtain ⟨-, -, source, target, hash, -, rfl⟩ := Forest.exists_of_mem hlinks.flip hd
  exact ⟨source, target, hash, rfl⟩

theorem target_of_link (hsize : p.nodes.size < 2 ^ 63) (hd : p.Has d) (hc : p.Has c)
    (h : LinksOf p last d ds) (hmem : .inherit source (handle c) hash ∈ ds) : d = c := by
  obtain ⟨bs, -, -, hlinks⟩ := h
  obtain ⟨i, hi, source', target', hash', rfl, heq⟩ := Forest.exists_of_mem hlinks.flip hmem
  grind [link_eq_some, handle_inj]

theorem mem_links (hsize : p.nodes.size < 2 ^ 63) (hcs : ∀ c ∈ cs, p.Has c)
    (h : List.Forall₂ (LinksOf p last) cs links) (hc : c ∈ cs) (hbs : last.behaviours[c.id]? = some (some bs)) :
    .inherit source (handle c) hash ∈ links.flatten ↔
      .inheritMethod source (handle c) hash ∈ bs.filterMap (link p c) := by
  have hsame {as : List Behaviour} (has : last.behaviours[c.id]? = some (some as)) : as = bs :=
    Option.some.inj (Option.some.inj (has.symm.trans hbs))
  constructor
  · intro hmem
    obtain ⟨ds, hds, hmem⟩ := mem_flatten.mp hmem
    obtain ⟨d, hd, hof⟩ := Forest.exists_of_mem h.flip hds
    obtain rfl := target_of_link hsize (hcs d hd) (hcs c hc) hof hmem
    obtain ⟨as, -, has, hlinks⟩ := hof
    obtain ⟨i, hi, source', target', hash', rfl, heq⟩ := Forest.exists_of_mem hlinks.flip hmem
    cases heq
    rw [← hsame has]
    exact hi
  · intro hmem
    obtain ⟨ds, hds, as, -, has, hlinks⟩ := Forest.exists_of_mem h hc
    rw [hsame has] at hlinks
    obtain ⟨d, hd, source', target', hash', heq, rfl⟩ := Forest.exists_of_mem hlinks hmem
    cases heq
    exact mem_flatten.mpr ⟨ds, hds, hd⟩

theorem noneOf_methods (hp : p.Grown) (hs : Unmistakable p s) (hk : p.Has k)
    (h : ∀ m ∈ p.methods k, p.methodSelector? m ≠ some s) : NoneOf p (p.methods k) (hashOf s) := by
  intro m hm sel hsel heq
  grind [selector_of_hash]

theorem own_behaviour (hbs : p.IsAnswer c bs) (hm : m ∈ p.methods c)
    (hsel : p.methodSelector? m = some s) : ∃ b ∈ bs, b.selector = s ∧ ∃ n ∈ p.methods c, b.method = n.id := by
  obtain ⟨n, hn⟩ : ∃ n, (p.methods c).find? (fun m => p.methodSelector? m == some s) = some n :=
    Option.isSome_iff_exists.mp (find?_isSome.mpr ⟨m, hm, by simp [hsel]⟩)
  obtain ⟨b, hb, hbs, hid⟩ := hbs.own s n hn
  exact ⟨b, hb, hbs, n, mem_of_find?_eq_some hn, hid⟩

theorem link_of_mem (hp : p.Grown) (hs : Unmistakable p s) (hbs : p.IsAnswer c bs)
    {target : UInt64} (h : .inheritMethod source target (hashOf s) ∈ bs.filterMap (link p c)) :
    ∃ b ∈ bs, b.selector = s ∧ link p c b = some (.inheritMethod source target (hashOf s)) := by
  obtain ⟨b, hb, hlink⟩ := mem_filterMap.mp h
  refine ⟨b, hb, ?_, hlink⟩
  obtain ⟨_, _, -, -, -, -, heq⟩ := link_eq_some hlink
  injection heq with _ _ hhash
  obtain ⟨k, m, hk, hm, -, hsel⟩ := hbs.found.stems b hb
  exact selector_of_hash hp hs hk hm hsel hhash.symm

/-- What classes hold at last, by what they hold before they inherit. -/
structure Inherits (p : Program) (base last : Memo) (cs : List Node) (v u : Table) : Prop where
  remembered : ∀ c ∈ cs, ∃ bs, p.IsAnswer c bs ∧ last.behaviours[c.id]? = some (some bs)
  settled : ∀ c ∈ cs, ∀ hash, Settled p base c hash .empty v
  other : ∀ c, p.Has c → c ∉ cs → ∀ hash, u.holds (handle c) hash = none
  kept : ∀ i hash m, v.holds i hash = some m → u.holds i hash = some m
  same : ∀ c ∈ cs, ∀ bs, last.behaviours[c.id]? = some (some bs) → ∀ hash,
    (∀ source, .inheritMethod source (handle c) hash ∉ bs.filterMap (link p c)) →
      u.holds (handle c) hash = v.holds (handle c) hash
  taken : ∀ c ∈ cs, ∀ bs, last.behaviours[c.id]? = some (some bs) → ∀ source hash,
    .inheritMethod source (handle c) hash ∈ bs.filterMap (link p c) →
    (∀ src, .inheritMethod src (handle c) hash ∈ bs.filterMap (link p c) → src = source) →
    v.holds (handle c) hash = none → ∃ m, u.holds (handle c) hash = some m ∧ u.holds source hash = some m

theorem ClassDecls.inherits (hsize : p.nodes.size < 2 ^ 63) (hcs : ∀ c ∈ cs, p.Has c)
    (hds : ClassDecls p base last cs ds) (h : ChangesAll ds .empty u) : ∃ v, Inherits p base last cs v u := by
  obtain ⟨hheads, hmembers, hlinks⟩ := hds
  obtain ⟨t, ht, h⟩ := Machine.changesAll_append.mp h
  obtain ⟨v, hv, hu⟩ := Machine.changesAll_append.mp h
  have hinherit := isInherit_of_links hlinks
  have hquiet : t.holds = Table.empty.holds := holds_quiet ht hheads
  refine ⟨v, fun c hc => ?_, fun c hc hash => ?_, fun c hc hnot hash => ?_, fun i hash m => holds_inherits hinherit hu,
    fun c hc bs hbs hash hno => ?_, fun c hc bs hbs source hash hmem honly hnone => ?_⟩
  · obtain ⟨-, -, bs, hanswer, hbs, -⟩ := Forest.exists_of_mem hlinks hc
    exact ⟨bs, hanswer, hbs⟩
  · have hsettled := (settled_classes hcs hsize hmembers hv hash (hcs c hc)).1 hc
    rwa [Settled, hquiet] at hsettled
  · rw [holds_of_no_inherit hinherit hu, (settled_classes hcs hsize hmembers hv hash hc).2 hnot, hquiet]
    · rfl
    · intro source hmem
      obtain ⟨es, hes, hmem⟩ := mem_flatten.mp hmem
      obtain ⟨d, hd, hlinks⟩ := Forest.exists_of_mem hlinks.flip hes
      obtain rfl := target_of_link hsize (hcs d hd) hc hlinks hmem
      exact hnot hd
  · grind [holds_of_no_inherit, mem_links]
  · exact holds_of_inherit hinherit hu ((mem_links hsize hcs hlinks hc hbs).mpr hmem)
      (fun src h => honly src ((mem_links hsize hcs hlinks hc hbs).mp h)) hnone

section

variable {v : Table} {bs : List Behaviour} (hp : p.Grown) (hs : Unmistakable p s) (hcs : ∀ c ∈ cs, p.Has c)
  (h : Inherits p base last cs v u)

include hp hs hcs h

theorem Inherits.bare (hc : c ∈ cs) (hacc : NoAccessor p c (hashOf s))
    (hnot : ∀ m ∈ p.methods c, p.methodSelector? m ≠ some s) : v.holds (handle c) (hashOf s) = none := by
  have hnone := noneOf_methods hp hs (hcs c hc) hnot
  rcases h.settled c hc (hashOf s) with hown | ⟨-, hsame⟩
  · exact absurd hnone hown.not_noneOf
  · exact hsame hacc

theorem Inherits.own (honce : DeclaredOnce p s) (hc : c ∈ cs) (hm : m ∈ p.methods c)
    (hsel : p.methodSelector? m = some s) : ∃ name body, IsLowered p base m (hashOf s) name body ∧
      u.holds (handle c) (hashOf s) = some ⟨name, .code body⟩ := by
  rcases h.settled c hc (hashOf s) with hown | ⟨hnone, -⟩
  · obtain ⟨name, body, hlow, hheld⟩ := hown.unique hp hs honce (hcs c hc) hm hsel
    exact ⟨name, body, hlow, h.kept _ _ _ hheld⟩
  · exact absurd rfl (hnone m hm s hsel)

/-- A class that inherits a method holds what the class that declares it holds. -/
theorem Inherits.taken_from (honce : DeclaredOnce p s) (hc : c ∈ cs)
    (hbs : last.behaviours[c.id]? = some (some bs)) (hk : p.Has k) (hm : m ∈ p.methods k)
    (hsel : p.methodSelector? m = some s)
    (hlink : .inheritMethod (handle k) (handle c) (hashOf s) ∈ bs.filterMap (link p c))
    (honly : ∀ src, .inheritMethod src (handle c) (hashOf s) ∈ bs.filterMap (link p c) → src = handle k)
    (hbare : v.holds (handle c) (hashOf s) = none) : ∃ name body, IsLowered p base m (hashOf s) name body ∧
      u.holds (handle c) (hashOf s) = some ⟨name, .code body⟩ := by
  obtain ⟨x, hx, hkx⟩ := h.taken c hc bs hbs _ _ hlink honly hbare
  by_cases hkc : k ∈ cs
  · obtain ⟨name, body, hlow, hheld⟩ := h.own hp hs hcs honce hkc hm hsel
    exact ⟨name, body, hlow, by rw [hx, ← hkx, hheld]⟩
  · rw [h.other k hk hkc] at hkx
    cases hkx

/-- Once classes are declared, each holds for a selector what its behaviours name. -/
theorem Inherits.agrees (honce : DeclaredOnce p s) (hc : c ∈ cs) (hwhole : c.shape ≠ .classNode true)
    (hacc : NoAccessor p c (hashOf s) ∨ ∃ m ∈ p.methods c, p.methodSelector? m = some s)
    (hbs : last.behaviours[c.id]? = some (some bs)) (hanswer : p.IsAnswer c bs) :
    Agrees p base u c s ((bs.find? (·.selector == s)).map (·.method)) := by
  have hbare (hnot : ∀ m ∈ p.methods c, p.methodSelector? m ≠ some s) : v.holds (handle c) (hashOf s) = none :=
    h.bare hp hs hcs hc (hacc.resolve_right fun ⟨m, hm, hsel⟩ => hnot m hm hsel) hnot
  cases hfind : bs.find? (·.selector == s) with
  | none =>
    have hno : ∀ b ∈ bs, b.selector ≠ s := by simpa using hfind
    show u.holds (handle c) (hashOf s) = none
    rw [h.same c hc bs hbs, hbare]
    · grind [own_behaviour]
    · grind [link_of_mem]
  | some b =>
    have hb := mem_of_find?_eq_some hfind
    have hbsel : b.selector = s := by simpa using find?_some hfind
    have honly {b' : Behaviour} (hb' : b' ∈ bs) (hs : b'.selector = s) : b' = b := by
      have h := Program.find?_selector hanswer.found.nodup hb'
      rw [hs, hfind] at h
      exact (Option.some.inj h).symm
    obtain ⟨k, m, hk, hm, hid, hsel⟩ := hanswer.found.stems b hb
    have howner := hp.closestClass_method hk hm
    have hat := (hk.mem_methods hm).1.at_
    rw [hbsel] at hsel
    refine ⟨k, m, hk, hm, hid.symm, hsel, ?_⟩
    by_cases hkc : k = c
    · subst hkc
      exact ⟨fun hpartial => absurd hpartial hwhole, fun _ => h.own hp hs hcs honce hc hm hsel⟩
    · have hids : k.id ≠ c.id := fun heq => hkc (hk.eq_of_id (hcs c hc) heq)
      have hnot : ∀ n ∈ p.methods c, p.methodSelector? n ≠ some s := by
        intro n hn hnsel
        obtain ⟨b', hb', hbs', n', hn', hid'⟩ := own_behaviour hanswer hn hnsel
        rw [honly hb' hbs', hid] at hid'
        rw [(hk.mem_methods hm).1.eq_of_id ((hcs c hc).mem_methods hn').1 hid',
          hp.closestClass_method (hcs c hc) hn'] at howner
        exact hkc (Option.some.inj howner).symm
      have hsource {src : UInt64} (hmem : .inheritMethod src (handle c) (hashOf s) ∈ bs.filterMap (link p c)) :
          src = handle k ∧ k.shape ≠ .classNode true := by
        obtain ⟨b', hb', hbs', hlink⟩ := link_of_mem hp hs hanswer hmem
        rw [honly hb' hbs'] at hlink
        obtain ⟨m', k', hm', hk', -, hpartial, heq⟩ := link_eq_some hlink
        rw [hid, hat] at hm'
        cases hm'
        rw [howner] at hk'
        cases hk'
        injection heq with hsrc
        exact ⟨hsrc, hpartial⟩
      constructor
      · intro hpartial
        rw [h.same c hc bs hbs _ fun src hmem => (hsource hmem).2 hpartial, hbare hnot]
      · intro hpartial
        refine h.taken_from hp hs hcs honce hc hbs hk hm hsel ?_ (fun src hmem => (hsource hmem).1) (hbare hnot)
        grind [link]

end

end

def named? (p : Program) (m : Memo) (c : Node) (s : String) : Option Nat :=
  ((do return (← p.behaviourNamed (← p.declarationType c) s).map (·.method) : Typing (Option Nat)).run m).1

theorem named?_of_remembered (hp : p.Grown) (hc : p.Has c) (hs : c.shape.isClass)
    (hsince : p.Since base last) (hbs : last.behaviours[c.id]? = some (some bs)) (s : String) :
    named? p last c s = (bs.find? (·.selector == s)).map (·.method) := by
  obtain ⟨⟨name, args, htype⟩, hm⟩ := Program.keeps_classType hp hc hs last hsince.now
  have hrun := Program.run_behaviours_of_remembered hc hs (hm.extends_.behaviours _ _ hbs) name args
  have hnamed : named? p last c s = ((((p.behaviours ((p.declarationType c).run last).1).run
      ((p.declarationType c).run last).2).1).find? (·.selector == s)).map (·.method) := rfl
  rw [hnamed, htype, hrun, Program.find?_applied, Option.map_map]
  rfl

def declared (p : Program) : Except Error (List Instruction) :=
  (run (declarations p (p.modules.flatMap (moduleDeclarations p))) (checked p)).code

theorem mem_moduleClasses (hp : p.Grown) (hroots : p.Rooted) (hc : p.Has c)
    (hs : c.shape = .classNode false) (hlines : ∀ r ∈ p.lines, ¬ p.Placed r c) : c ∈ moduleClasses p := by
  have hclass : c.shape.isClass := by rw [hs]; rfl
  obtain ⟨r, hr, hplaced⟩ := hp.sown.class_placed hroots hc hclass
  rcases mem_module_or_line hp hroots hr hplaced (.inl hclass) with hmem | hmem
  · exact mem_classesOf.mpr ⟨hmem, hs⟩
  · exact absurd hplaced (hlines r hmem)

theorem DeclaredBy.inherits (hp : p.Grown) (hsize : p.nodes.size < 2 ^ 63) {before : List Instruction}
    (h : DeclaredBy p base last (p.modules.flatMap (moduleDeclarations p)) before) {depth : Nat}
    (hw : Machine.eval before (.fresh depth) = .ok () w) : ∃ v, Inherits p base last (moduleClasses p) v w.table := by
  have hds : ∀ d ∈ p.modules.flatMap (moduleDeclarations p), p.Has d := fun d => has_moduleDeclaration hp
  have horder := h.orderly hp .nil fun D => .nil D
  rw [append_nil, append_nil] at horder
  obtain ⟨es, _, b, hes, ⟨hclosed, rfl⟩, hb, rfl⟩ := h.decls hp hds
  obtain ⟨⟨holds, declaring⟩, hu, rfl⟩ := Machine.table_of_eval horder hclosed hb hw
  obtain ⟨v, hv⟩ := hes.inherits hsize (fun c hc => hds c (mem_classesOf.mp hc).1) hu
  exact ⟨v, hv.remembered, hv.settled, hv.other, hv.kept, hv.same, hv.taken⟩

/-- The code of a program starts with what its modules declare. Once that has been run, a class holds for a
selector the method that its type names, but nothing where a partial class declares it. -/
theorem held_as_named {ss : List Source} {code : List Instruction}
    (hclean : ∀ s ∈ ss, Diagnostic.hasErrors (s.parse none).remarks = false)
    (hp : p = .ofDocuments (ss.map (·.parse none))) (hsize : p.nodes.size < 2 ^ 63)
    (hcode : (run (whole p) (checked p)).code = .ok code) :
    ∃ before rest, code = before ++ rest ∧ declared p = .ok before ∧
      ∀ {depth : Nat} {w : Machine.State}, Machine.eval before (.fresh depth) = .ok () w →
      ∀ c, p.Has c → c.shape = .classNode false → (∀ r ∈ p.lines, ¬ p.Placed r c) →
      ∀ s, Unmistakable p s → DeclaredOnce p s →
      (NoAccessor p c (hashOf s) ∨ ∃ m ∈ p.methods c, p.methodSelector? m = some s) →
        Agrees p (checked p) w.table c s (named? p (run (whole p) (checked p)).memo c s) := by
  have hgrown : p.Grown := hp ▸ Program.grown_of_no_errors hclean
  have hroots : p.Rooted := hp ▸ Source.rooted_of_no_errors hclean
  have hds : ∀ d ∈ p.modules.flatMap (moduleDeclarations p), p.Has d := fun d => has_moduleDeclaration hgrown
  have hchecked : p.Since (checked p) (checked p) := (since_checked hgrown).now
  have hyields : Yields (whole p) ⟨checked p, [], []⟩ code (((whole p).run.run ⟨checked p, [], []⟩).2) :=
    Prod.ext hcode rfl
  have hlast : p.Since (checked p) (run (whole p) (checked p)).memo := (recalls_whole hgrown).memo hyields hchecked
  obtain ⟨before, u, hbefore, hrest⟩ := yields_bind.mp hyields
  obtain ⟨lines, v, hlines, hend⟩ := yields_bind.mp hrest
  obtain ⟨rfl, rfl⟩ := yields_pure.mp hend
  have hu := (recalls_declarations hgrown hds).memo hbefore hchecked
  have hdeclared : DeclaredBy p (checked p) (run (whole p) (checked p)).memo _ before :=
    declaredBy_of_yields hgrown hds hchecked hbefore
      ((Recalls.mapM fun n hn => recalls_line hgrown (has_sortedLine hgrown n hn)).memo hlines hu.now)
  refine ⟨before, lines.flatten ++ [.halt], by simp, congrArg Prod.fst hbefore, ?_⟩
  intro depth w hw c hc hs hplaced s hunmistakable honce hacc
  have hmem := mem_moduleClasses hgrown hroots hc hs hplaced
  have hall : ∀ c ∈ moduleClasses p, p.Has c := fun c hc => hds c (mem_classesOf.mp hc).1
  obtain ⟨x, hinherits⟩ := hdeclared.inherits hgrown hsize hw
  obtain ⟨bs, hanswer, hbs⟩ := hinherits.remembered c hmem
  rw [named?_of_remembered hgrown hc (by rw [hs]; rfl) hlast hbs]
  exact hinherits.agrees hgrown hunmistakable hall honce hmem (by simp [hs]) hacc hbs hanswer

def kennel : List Source :=
  [.ofString .module "test:kennel.loa"
    "partial class Pet { feed => self. }\nclass Dog { bark => self. }\nclass Pup { is Pet. is Dog. play => self. }"]

def kennelProgram : Program := .ofDocuments (kennel.map (·.parse none))

def settled? (p : Program) : Option Machine.State :=
  match declared p with
  | .ok before =>
    match Machine.eval before (.fresh 100) with
    | .ok () w => some w
    | .error .. => none
  | .error _ => none

theorem settled?_eq_some (h : settled? p = some w) :
    ∃ before, declared p = .ok before ∧ Machine.eval before (.fresh 100) = .ok () w := by
  grind [settled?]

def classNamed? (p : Program) (name : String) : Option Node :=
  p.all.find? fun c => c.shape == .classNode false && p.nameOf? c == some name

theorem exists_settled {name : String} {f : Node → Machine.State → Bool}
    (h : ((classNamed? p name).bind fun c => (settled? p).map (f c)) = some true) :
    ∃ c before w, classNamed? p name = some c ∧ declared p = .ok before ∧
      Machine.eval before (.fresh 100) = .ok () w ∧ f c w := by
  obtain ⟨c, hc, h⟩ := Option.bind_eq_some_iff.mp h
  obtain ⟨w, hw, h⟩ := Option.map_eq_some_iff.mp h
  grind [settled?_eq_some]

/-- Nothing is wrong with the program, but what a class has from a partial one by its type it does not hold. -/
theorem partial_method_not_held : (∀ s ∈ kennel, Diagnostic.hasErrors (s.parse none).remarks = false) ∧
    Diagnostic.hasErrors ((Check.runAll Check.all kennelProgram).run (.fresh kennelProgram)).1 = false ∧
    Distinct kennelProgram ∧ ∃ c before w, classNamed? kennelProgram "Pup" = some c ∧
      declared kennelProgram = .ok before ∧ Machine.eval before (.fresh 100) = .ok () w ∧
      kennelProgram.memberVariables c = [] ∧
      (named? kennelProgram (run (whole kennelProgram) (checked kennelProgram)).memo c "feed").isSome = true ∧
      w.table.holds (handle c) (hashOf "feed") = none := by
  refine ⟨by decide +kernel, by decide +kernel, by unfold Distinct; decide +kernel, ?_⟩
  obtain ⟨c, before, w, hc, hbefore, hw, h⟩ := @exists_settled kennelProgram "Pup"
    (fun c w => (kennelProgram.memberVariables c).isEmpty &&
      (named? kennelProgram (run (whole kennelProgram) (checked kennelProgram)).memo c "feed").isSome &&
      (w.table.holds (handle c) (hashOf "feed")).isNone) (by decide +kernel)
  simp only [Bool.and_eq_true, List.isEmpty_iff, Option.isNone_iff_eq_none] at h
  exact ⟨c, before, w, hc, hbefore, hw, h.1.1, h.1.2, h.2⟩

theorem held_as_named_kennel : ∃ c before w, classNamed? kennelProgram "Pup" = some c ∧
    declared kennelProgram = .ok before ∧ Machine.eval before (.fresh 100) = .ok () w ∧
    (named? kennelProgram (run (whole kennelProgram) (checked kennelProgram)).memo c "bark").isSome = true ∧
    Agrees kennelProgram (checked kennelProgram) w.table c "bark"
      (named? kennelProgram (run (whole kennelProgram) (checked kennelProgram)).memo c "bark") := by
  have hclean : ∀ s ∈ kennel, Diagnostic.hasErrors (s.parse none).remarks = false := by decide +kernel
  have hgrown : kennelProgram.Grown := Program.grown_of_no_errors hclean
  obtain ⟨code, hcode⟩ : ∃ code, (run (whole kennelProgram) (checked kennelProgram)).code = .ok code := by
    have h : (run (whole kennelProgram) (checked kennelProgram)).code.isOk = true := by decide +kernel
    cases hcode : (run (whole kennelProgram) (checked kennelProgram)).code with
    | ok code => exact ⟨code, rfl⟩
    | error e =>
      rw [hcode] at h
      cases h
  obtain ⟨c, before, w, hc, hbefore, hw, h⟩ := @exists_settled kennelProgram "Pup"
    (fun c _ => (kennelProgram.memberVariables c).isEmpty &&
      (named? kennelProgram (run (whole kennelProgram) (checked kennelProgram)).memo c "bark").isSome)
    (by decide +kernel)
  simp only [Bool.and_eq_true, List.isEmpty_iff] at h
  obtain ⟨before', rest, -, hdeclared, hagrees⟩ :=
    held_as_named (p := kennelProgram) hclean rfl (by decide +kernel) hcode
  obtain rfl : before = before' := Except.ok.inj (hbefore.symm.trans hdeclared)
  have hshape : c.shape = .classNode false := by
    have hfound := find?_some hc
    simp only [Bool.and_eq_true, beq_iff_eq] at hfound
    exact hfound.1
  refine ⟨c, before, w, hc, hbefore, hw, h.2, hagrees hw c (hgrown.sown.mem_all.mp (mem_of_find?_eq_some hc))
    hshape ?_ "bark" (by unfold Unmistakable; decide +kernel) ?_ (.inl ?_)⟩
  · have hlines : kennelProgram.lines = [] := by decide +kernel
    rw [hlines]
    exact fun _ h => absurd h List.not_mem_nil
  · intro k hk m hm n hn hmsel hnsel
    have honce : ∀ k ∈ kennelProgram.all, ∀ m ∈ kennelProgram.methods k, ∀ n ∈ kennelProgram.methods k,
        kennelProgram.methodSelector? m = some "bark" → kennelProgram.methodSelector? n = some "bark" →
          m.id = n.id := by
      decide +kernel
    exact (hk.mem_methods hm).1.eq_of_id (hk.mem_methods hn).1
      (honce k (hgrown.sown.mem_all.mpr hk) m hm n hn hmsel hnsel)
  · intro v hv
    rw [h.1] at hv
    exact absurd hv List.not_mem_nil

end Parlance.Lowering
