import Choco.Proofs.ExactUsers
import Choco.Proofs.Linking

namespace Choco

namespace IR

def Kind.flat? : Kind → Option FlatOp
  | .flat op => some op
  | _ => none

namespace Module

variable {m : Module} {c : Code} {f : FlatOp → Option String}

/-- The name that an operation has or mentions, where it is flat. -/
def nameAt (m : Module) (f : FlatOp → Option String) (id : OpId) : Option String :=
  do f (← (← m.get? id).kind.flat?)

def names (m : Module) (f : FlatOp → Option String) (ids : List OpId) : List String :=
  ids.filterMap (m.nameAt f)

theorem names_cons {id : OpId} {op : Op} (h : m.get? id = some op) (f : FlatOp → Option String)
    (ids : List OpId) :
    m.names f (id :: ids) = (op.kind.flat? >>= f).toList ++ m.names f ids := by
  have hname : m.nameAt f id = (op.kind.flat? >>= f) := by rw [nameAt, h]; rfl
  rw [← hname]
  cases hid : m.nameAt f id <;> simp [names, hid]

/-- Every operation of a list is flat and without regions. -/
def IsFlat (m : Module) (parent : Place) (ids : List OpId) : Prop :=
  ∀ id ∈ ids, ∃ op operands result, m.get? id = some ⟨.flat op, operands, result, [], some parent⟩

theorem Holds.isFlat {parent : Place} {is : List Instruction} (h : m.Holds (some parent) c)
    (hreads : c.Reads is) :
    m.IsFlat parent c.ids ∧ c.allIds = c.ids ∧ ∀ f, m.names f c.ids = namesOf f is := by
  induction hreads with
  | nil => exact ⟨List.forall_mem_nil _, rfl, fun _ => rfl⟩
  | @leaf id i rest is _ ih =>
    obtain ⟨hflat, hids, hnames⟩ := ih h.2
    have hget := h.1.get?_leaf
    refine ⟨List.forall_mem_cons.mpr ⟨⟨_, _, _, hget⟩, hflat⟩, congrArg (List.cons id) hids, fun f => ?_⟩
    rw [namesOf_cons, ← hnames f]
    exact names_cons hget f rest.ids

/-- The functions of a flat module, one for each body. -/
theorem Holds.bodies {bs : List (String × List Instruction)} (h : m.Holds (some .top) c)
    (hbodies : c.Bodies bs) :
    (∀ f, m.names f c.allIds = namesOf f (bs.flatMap Prod.snd)) ∧
      ∀ func ∈ c.ids, ∃ b ∈ bs, ∃ ty r, m.get? func = some ⟨.funcDef b.1 ty, [], none, [r], some .top⟩ ∧
        m.IsFlat (.nested func 0) r.ops ∧ ∀ f, m.names f r.ops = namesOf f b.2 := by
  induction hbodies with
  | nil => exact ⟨fun _ => rfl, List.forall_mem_nil _⟩
  | @function id label ty args body rest is bs hreads _ ih =>
    obtain ⟨hnode, hids, hbody, hrest⟩ := h
    have hget := hnode.regions_each hids
    obtain ⟨hflat, hall, hnames⟩ := hbody.isFlat hreads
    obtain ⟨hnamesRest, hfuncs⟩ := ih hrest
    refine ⟨fun f => ?_, List.forall_mem_cons.mpr ⟨?_, fun func hfunc => ?_⟩⟩
    · have hown : m.names f (id :: (body.allIds ++ rest.allIds)) = m.names f (body.allIds ++ rest.allIds) :=
        names_cons hget f _
      rw [Code.allIds_each, hown, names, List.filterMap_append, ← names, ← names, hall, hnames, hnamesRest,
        List.flatMap_cons, namesOf_append]
    · exact ⟨_, List.mem_cons_self, ty, _, hget, hflat, hnames⟩
    · obtain ⟨b, hb, hfunc⟩ := hfuncs func hfunc
      exact ⟨b, List.mem_cons_of_mem _ hb, hfunc⟩

end Module

end IR

namespace Options

open IR (Module Edit FlatOp)

variable {options : Options} {p : Program} {m : Module}

/-- In a module that was made flat every function is a list of flat operations. All labels of the module are
distinct and none is one of the library, and a branch or a jump goes to a trap or to a label that occurs once,
in the same function. -/
theorem flat_labels_local (h : options.Checkpoint p .flattening m) :
    (m.names FlatOp.label? m.walk).Nodup ∧ (∀ l ∈ m.names FlatOp.label? m.walk, l ∉ Library.labels) ∧
      ∀ func ∈ m.body.ops, ∃ label ty r, m.get? func = some ⟨.funcDef label ty, [], none, [r], some .top⟩ ∧
        m.IsFlat (.nested func 0) r.ops ∧
        ∀ l ∈ m.names FlatOp.target? r.ops, (∃ trap : Trap, l = trap.routine) ∨
          (m.names FlatOp.label? m.walk).count l = 1 ∧ l ∈ m.names FlatOp.label? r.ops := by
  obtain ⟨c, bs, q, hmodels, hbodies, -, hmarked, hlocal⟩ := h.exists_marked_bodies
  obtain ⟨hnodup, hlibrary⟩ := hmarked.nodup_labels
  obtain ⟨hnames, hfuncs⟩ := hmodels.holds.bodies hbodies
  have hops : m.body.ops = c.ids := Option.some.inj hmodels.top
  rw [hmodels.walk, hnames, hops]
  refine ⟨hnodup, hlibrary, fun func hfunc => ?_⟩
  obtain ⟨b, hb, ty, r, hget, hflat, hbody⟩ := hfuncs func hfunc
  refine ⟨b.1, ty, r, hget, hflat, fun l hl => ?_⟩
  rw [hbody] at hl ⊢
  refine (hlocal b hb l hl).symm.imp_right fun hl => ⟨?_, hl⟩
  exact List.count_eq_one_of_mem hnodup (mem_namesOf_flatMap hb hl)

def passes (options : Options) : Edit Nat := do
  let _ ← Edit.replaceLoops
  let _ ← Edit.replaceLibraryUses
  let _ ← Edit.optimize options.optLevel
  Edit.flatten

theorem checkpoint_of_passes {m' : Module} {k : Nat} (hm : Module.ofProgram p = .ok m)
    (h : options.passes m = .ok k m') :
    options.Checkpoint p .flattening m' := by
  obtain ⟨_, m₁, hloops, h⟩ := Action.bind_eq_ok.mp h
  obtain ⟨_, m₂, huses, h⟩ := Action.bind_eq_ok.mp h
  obtain ⟨_, m₃, hoptimize, h⟩ := Action.bind_eq_ok.mp h
  exact ((((Checkpoint.translation hm).loops hloops).libraryUses huses).optimization hoptimize).flattening h

/-- A loop with a conditional in it that has a loop on one side and a conditional on the other, beside a
function with a loop: `while b and b: if b: while b: pass` and so on. -/
def nestedConstructs : Program :=
  let b : Expr := .name "b" .bool
  { decls := [.func ⟨"f", [], .none, [.var ⟨"b", .bool, .bool false⟩],
      [.whileLoop (.binary .or b b .bool) [.pass]]⟩, .var ⟨"b", .bool, .bool false⟩]
    stmts := [.whileLoop (.binary .and b b .bool) [.ifElse b [.whileLoop b [.pass]] [.ifElse b [.pass] []]]] }

theorem nestedConstructs_labels :
    ∃ m, ({} : Options).Checkpoint nestedConstructs .flattening m ∧
      (m.names FlatOp.label? m.walk).length = 19 ∧ (m.names FlatOp.label? m.walk).Nodup ∧
        ∀ l ∈ m.names FlatOp.label? m.walk, l ∉ Library.labels := by
  have hcheck : (Module.ofProgram nestedConstructs).toOption.any (fun m => (passes {}).succeeds m &&
      (((passes {}).left m).names FlatOp.label? ((passes {}).left m).walk).length = 19) = true := by
    decide +kernel
  cases hm : Module.ofProgram nestedConstructs with
  | error e =>
    rw [hm] at hcheck
    cases hcheck
  | ok m =>
    rw [hm] at hcheck
    simp only [Except.toOption, Option.any_some, Bool.and_eq_true, decide_eq_true_eq] at hcheck
    obtain ⟨k, hrun⟩ := Edit.exists_ok_left hcheck.1
    have h := checkpoint_of_passes hm hrun
    obtain ⟨hnodup, hlibrary, -⟩ := flat_labels_local h
    exact ⟨_, h, hcheck.2, hnodup, hlibrary⟩

end Options

end Choco
