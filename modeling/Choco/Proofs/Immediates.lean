import Choco.Proofs.Linking
import Choco.Proofs.Objects

namespace Choco

namespace Asm

open IR (Module OpId ValueId FlatOp Code Instruction)
open Instr

variable {i : Instr} {index count : Nat}

/-- The operation adds its number to a register or combines it with one, in twelve bits with a sign. -/
def Opcode.isImmediate : Opcode → Bool
  | .lw | .sw | .lbu | .sb | .addi | .andi => true
  | _ => false

def Immediate.fits : Immediate → Bool
  | .int n => minImmediate ≤ n ∧ n ≤ maxImmediate
  | .label _ => false

namespace Instr

/-- The instruction has a number that fits, if it is one that needs it. -/
def isEncodable (i : Instr) : Bool := !i.opcode.isImmediate || i.imm.any Immediate.fits

end Instr

/-- The instructions that do not fit, without comments. -/
def unencodable (is : List Instr) : List Instr := (is.map bare).filter (!·.isEncodable)

@[simp] theorem unencodable_nil : unencodable [] = [] := rfl

@[simp] theorem unencodable_append (is js : List Instr) :
    unencodable (is ++ js) = unencodable is ++ unencodable js := by
  simp [unencodable]

theorem unencodable_cons (i : Instr) (is : List Instr) :
    unencodable (i :: is) = unencodable [i] ++ unencodable is :=
  unencodable_append [i] is

theorem unencodable_singleton (h : i.isEncodable) : unencodable [i] = [] := by
  have hbare : i.bare.isEncodable := h
  simp [unencodable, hbare]

theorem unencodable_plain (h : i.opcode.isImmediate = false) (is : List Instr) :
    unencodable (i :: is) = unencodable is := by
  rw [unencodable_cons, unencodable_singleton (by simp [isEncodable, h]), List.nil_append]

theorem isEncodable_of_unencodable {is : List Instr} (h : unencodable is = []) : ∀ i ∈ is, i.isEncodable := by
  intro i hi
  have hbare := List.filter_eq_nil_iff.mp h i.bare (List.mem_map_of_mem hi)
  rw [Bool.not_eq_true', Bool.not_eq_false] at hbare
  exact hbare

section Elements

/-- The store of an element, given by its number. -/
def elementStore (index : Nat) : Instr := sw .t2 (Int32.ofNat (4 * index + 4)) .t1

/-- The stores of elements that do not fit, of as many elements from a number on. -/
def elementStores (index count : Nat) : List Instr :=
  ((List.range' index count).filter (maxElements ≤ ·)).map elementStore

/-- The stores of an object's elements that do not fit. -/
def wideStores (size : Nat) : List Instr := elementStores 0 size

theorem wideStores_eq_nil {size : Nat} (h : size ≤ maxElements) : wideStores size = [] := by
  rw [wideStores, elementStores, List.map_eq_nil_iff, List.filter_eq_nil_iff]
  intro index hindex
  have hlt := List.mem_range'_1.mp hindex
  simp only [decide_eq_true_eq]
  omega

example : wideStores 513 = [sw .t2 2048 .t1, sw .t2 2052 .t1] := by decide +kernel

theorem ofNat_le_maxImmediate {n : Nat} (h : n < 2147483648) : Int32.ofNat n ≤ maxImmediate ↔ n ≤ 2047 := by
  rw [Int32.le_iff_toInt_le, Int32.toInt_ofNat_of_lt (by omega)]
  change (n : Int) ≤ 2047 ↔ _
  omega

theorem isEncodable_elementStore (h : 4 * index + 4 < 2147483648) : (elementStore index).isEncodable ↔
    index < maxElements := by
  have hmin := minImmediate_le_ofNat h
  have hmax := ofNat_le_maxImmediate h
  simp only [isEncodable, elementStore, sw, Opcode.isImmediate, Immediate.fits, Bool.not_true, Bool.false_or,
    Option.any_some, decide_eq_true_eq, hmin, true_and, hmax, maxElements]
  omega

theorem unencodable_elementStore (h : 4 * index + 4 < 2147483648) :
    unencodable [elementStore index] = if maxElements ≤ index then [elementStore index] else [] := by
  have hbare : (elementStore index).bare = elementStore index := rfl
  have hfits := isEncodable_elementStore h
  split
  next hle =>
    rw [unencodable, List.map_singleton, hbare, List.filter_cons_of_pos]
    · rfl
    · rw [Bool.not_eq_true', ← Bool.not_eq_true, hfits]
      exact Nat.not_lt_of_le hle
  next hlt => exact unencodable_singleton (hfits.mpr (Nat.lt_of_not_le hlt))

theorem elementStores_succ (h : 4 * index + 4 < 2147483648) :
    elementStores index (count + 1) = unencodable [elementStore index] ++ elementStores
      (index + 1) count := by
  rw [unencodable_elementStore h, elementStores, List.range'_succ, List.filter_cons]
  by_cases hle : maxElements ≤ index
  · rw [if_pos hle, if_pos (decide_eq_true hle)]
    rfl
  · rw [if_neg hle, if_neg (by simpa using hle)]
    rfl

end Elements

section Flat

variable {n : IR.Node} {p p' : IR.Progress} {c : Code}

def numbered : FlatOp → List Instr
  | .lw offset => [lw .t0 offset .t1]
  | .sw offset => [sw .t2 offset .t1]
  | .addi n => [addi .t0 .t1 n]
  | _ => []

/-- The instructions for operations that hold a number of the operation and do not fit. -/
def wideOf (is : List Instruction) : List Instr := is.flatMap fun i => unencodable (numbered i.op)

@[simp] theorem wideOf_nil : wideOf [] = [] := rfl

@[simp] theorem wideOf_cons (i : Instruction) (is : List Instruction) :
    wideOf (i :: is) = unencodable (numbered i.op) ++ wideOf is := rfl

@[simp] theorem wideOf_append (is js : List Instruction) : wideOf (is ++ js) = wideOf is ++ wideOf js :=
  List.flatMap_append

theorem wideOf_map (σ : ValueId → ValueId) (is : List Instruction) :
    wideOf (is.map (·.map σ)) = wideOf is := by
  rw [wideOf, List.flatMap_map]
  rfl

@[simp] theorem unencodable_lw_zero : unencodable [lw .t0 0 .t1] = [] := by decide

@[simp] theorem unencodable_sw_zero : unencodable [sw .t2 0 .t1] = [] := by decide

@[simp] theorem unencodable_addi_one : unencodable [addi .t0 .t1 1] = [] := by decide

variable {is js ks : List Instruction} {x y v : ValueId}

theorem lt_of_elementOffset {offset : Int32} (h : IR.elementOffset index = .ok offset) :
    4 * index + 4 < 2147483648 ∧ offset = Int32.ofNat (4 * index + 4) := by
  rw [IR.Build.elementOffset_eq] at h
  split at h
  next hlt =>
    cases h
    exact ⟨hlt, rfl⟩
  next => cases h

theorem flatMap_stores {ops : List FlatOp} (h : IR.Stores index count ops) :
    (ops.flatMap fun op => unencodable (numbered op)) = elementStores index count := by
  induction count generalizing index ops with
  | zero => exact h ▸ rfl
  | succ count ih =>
    obtain ⟨offset, rest, hoffset, rfl, hrest⟩ := h
    obtain ⟨hlt, rfl⟩ := lt_of_elementOffset hoffset
    rw [List.flatMap_cons, ih hrest, elementStores_succ hlt]
    rfl

theorem wideOf_leafFlat {wanted : Bool} {v : Option ValueId} (h : IR.LeafFlat n.kind n.operands wanted v is) :
    wideOf is = n.objectSize?.toList.flatMap wideStores := by
  obtain ⟨id, kind, xs, r⟩ := n
  obtain ⟨ops, hops, hnotes⟩ := h.notes
  have hquiet (op : FlatOp) (hop : op.Quiet) : unencodable (numbered op) = [] := by
    cases op <;> simp_all [FlatOp.Quiet, numbered]
  rw [wideOf, hnotes.flatMap_eq hquiet]
  cases hops with
  | list hstores | text hstores =>
    rw [List.flatMap_cons, flatMap_stores hstores]
    simp [numbered, IR.Node.objectSize?, Literal.objectSize?, wideStores]
  | call | ret => rfl
  | nothing hlist htext =>
    obtain hnone : (⟨id, kind, xs, r⟩ : IR.Node).objectSize? = none := by
      cases kind with
      | list => exact absurd rfl hlist
      | literal l =>
        cases l with
        | str s => exact absurd rfl (htext s)
        | int | bool | none => rfl
      | _ => rfl
    rw [hnone]
    rfl

theorem wideOf_forkFlat {k : Nat} {x y : Option ValueId} (h : IR.ForkFlat k n is x js y ks) :
    n.largeObject? = none ∧ wideOf ks = wideOf is ++ wideOf js := by
  cases h <;> simp [numbered, IR.Node.largeObject?, IR.Node.objectSize?]

theorem flatMap_largeObject? (n : IR.Node) :
    n.largeObject?.toList.flatMap wideStores = n.objectSize?.toList.flatMap wideStores := by
  rw [IR.Node.largeObject?]
  cases n.objectSize? with
  | none => rfl
  | some size =>
    by_cases h : maxElements < size
    · simp [Option.filter, h]
    · simp [Option.filter, h, wideStores_eq_nil (Nat.le_of_not_lt h)]

theorem wideOf_lowers {out : Option ValueId} (h : IR.Lowers p c is out p') :
    wideOf is = c.largeObjects.flatMap wideStores := by
  induction h with
  | nil | yield => rfl
  | @leaf _ _ n _ _ _ _ _ _ hflat _ _ ih =>
    rw [wideOf_append, wideOf_leafFlat hflat, ih, Code.largeObjects_leaf, List.flatMap_append,
      flatMap_largeObject?]
  | fork _ _ hflat _ iha ihb ih =>
    obtain ⟨hnone, hwide⟩ := wideOf_forkFlat hflat
    rw [wideOf_append, hwide, iha, ihb, ih, Code.largeObjects_fork, hnone]
    simp

theorem exists_bodies_wideOf {c' : Code} (h : IR.LowersFunctions p c c' p') (hc : c.Functions)
    (θ : ValueId → ValueId) :
    ∃ bs, (c'.relabel θ).Bodies bs ∧ bs.map Prod.fst = c.labels ∧
      (bs.flatMap fun b => wideOf b.2) = c.largeObjects.flatMap wideStores := by
  induction h with
  | nil => exact ⟨[], .nil, rfl, rfl⟩
  | function hbody hreads _ ih =>
    cases hc with
    | function id label ty _ _ hrest =>
      obtain ⟨bs, hbs, hlabels, hwide⟩ := ih hrest
      refine ⟨_, .function id label ty _ (hreads.map θ) hbs, congrArg (List.cons label) hlabels, ?_⟩
      rw [List.flatMap_cons, hwide, wideOf_map, wideOf_lowers hbody, Code.largeObjects_each,
        List.flatMap_append, List.flatMap_append]
      rfl

end Flat

section Functions

variable {m : Module} {c : Code} {bs : List (String × List Instruction)} {is : List Instr}

theorem unencodable_moves (h : ∀ i ∈ is, i.Moves) : unencodable is = [] := by
  induction is with
  | nil => rfl
  | cons i is ih =>
    obtain ⟨hi, h⟩ := List.forall_mem_cons.mp h
    have hfits : i.isEncodable := by
      unfold Moves at hi
      split at hi <;> simp_all [isEncodable, Opcode.isImmediate]
      all_goals
        obtain ⟨n, himm, hmin, hmax⟩ := hi
        simp [himm, Immediate.fits, hmin, hmax]
    rw [unencodable_cons, unencodable_singleton hfits, ih h, List.nil_append]

theorem unencodable_core {name : String} {flat : FlatOp} (h : Wraps (core name flat) (is.map bare)) :
    unencodable is = unencodable (numbered flat) := by
  obtain ⟨before, behind, his, hbefore, hbehind⟩ := h
  have hbare : unencodable (is.map bare) = unencodable is := by
    rw [unencodable, List.map_map]
    rfl
  rw [← hbare, his, unencodable_append, unencodable_append, unencodable_moves hbefore,
    unencodable_moves hbehind, List.nil_append, List.append_nil]
  cases flat <;> rfl

theorem unencodable_functions {main : OpId} {global : Frame} {codes : List (List Instr)}
    (hbodies : c.Bodies bs) (h : m.Holds (some .top) c) (hglobal : Frame.layout m main = .ok global)
    (hcodes : List.Forall₂ (fun func code => functionCode m main global func = .ok code) c.ids codes) :
    unencodable codes.flatten = bs.flatMap fun b => wideOf b.2 := by
  have hflatten : ∀ {α : Type} {f : α → List Instr} {xs : List α} {codes : List (List Instr)},
      List.Forall₂ (fun x code => unencodable code = f x) xs codes →
        unencodable codes.flatten = xs.flatMap f := by
    intro α f xs codes hcodes
    induction hcodes with
    | nil => rfl
    | cons hcode _ ih => rw [List.flatten_cons, unencodable_append, hcode, ih, List.flatMap_cons]
  refine hflatten ((functionText hbodies h hglobal hcodes).imp fun b code hb => ?_)
  obtain ⟨start, ops, final, rfl, hstart, hfinal, hops⟩ := hb
  rw [unencodable_append, unencodable_append, unencodable_append, unencodable_plain rfl,
    unencodable_plain rfl, unencodable_moves hstart, unencodable_moves hfinal, List.nil_append]
  exact (List.append_nil _).trans (hflatten (hops.imp fun i code hi => unencodable_core hi))

end Functions

theorem unencodable_entry (main : String) : unencodable (Routine.entry main) = [] := rfl

theorem unencodable_library : unencodable Routine.all = [] := by decide +kernel

end Asm

namespace Options

open IR (Module Code)

variable {options : Options} {p : Program}

/-- The instructions of a compiled program that do not fit are the stores of the elements with numbers from
511 on, of large list displays and string literals of the program; without the optimizer these are all of
them. -/
theorem compiled_unencodable {r : Compiled} (hr : options.compile p = .ok r) :
    (∃ sizes : List Nat, sizes.Sublist p.objects ∧ (options.optLevel = 0 → sizes = large p.objects) ∧
      Asm.unencodable r.asm.text = sizes.flatMap Asm.wideStores) ∧
    ((∀ size ∈ p.objects, size ≤ maxElements) → ∀ i ∈ r.asm.text, i.isEncodable) := by
  obtain ⟨m, hm, hasm⟩ := exists_checkpoint_of_compile hr
  cases hm with
  | flattening h hrun =>
    obtain ⟨c, h⟩ := h.exists_stageCode nofun
    obtain ⟨hlabels, -⟩ := h.calls
    obtain ⟨hsublist, hall⟩ := h.largeObjects_sublist
    obtain ⟨m', θ, c', q, hrun', hnamed, hlowers, -⟩ | ⟨e, m', hrun', -⟩ := h.renders_optimization.flatten
    · cases hrun.symm.trans hrun'
      obtain ⟨bs, hbodies, hfst, hwide⟩ := Asm.exists_bodies_wideOf hlowers h.renders_optimization.functions θ
      obtain ⟨main, global, codes, hasm, hglobal, hcodes⟩ :=
        Asm.ofModule_codes hnamed.models hbodies (by rw [hfst, hlabels]; rfl) hasm
      have hfunctions := Asm.unencodable_functions hbodies hnamed.models.holds hglobal
        (hcodes.imp fun _ _ hcode => hcode.2)
      have htext : Asm.unencodable r.asm.text = c.largeObjects.flatMap Asm.wideStores := by
        rw [hasm]
        change Asm.unencodable (Asm.Routine.entry entryFunction ++ codes.flatten ++ Asm.Routine.all) = _
        rw [Asm.unencodable_append, Asm.unencodable_append, Asm.unencodable_entry, Asm.unencodable_library,
          hfunctions, hwide, List.nil_append, List.append_nil]
      refine ⟨⟨c.largeObjects, hsublist.trans (List.filter_sublist ..), fun hlevel => hall (.inl hlevel),
        htext⟩, fun hsmall => ?_⟩
      rw [large_eq_nil hsmall, List.sublist_nil] at hsublist
      rw [hsublist] at htext
      exact Asm.isEncodable_of_unencodable htext
    · cases hrun.symm.trans hrun'

/-- A variable that starts with a string, a function that returns a list display, and a print of an element of
it. -/
def smallObjects : Program where
  decls := [.var ⟨"s", .str, .str "é"⟩,
    .func (.ofBody "f" [] (.list .int) [.ret (some (.list [.ofInt 4, .ofInt 5, .ofInt 6] (.list .int)))])]
  stmts := [.print (.name "s" .str), .print (.index (.call "f" [] (.list .int)) (.ofInt 1) .int)]

theorem unencodable_smallObjects :
    ∃ r, ({} : Options).compile smallObjects = .ok r ∧ smallObjects.objects = [2, 3] ∧
      Asm.unencodable r.asm.text = [] ∧
      ∀ i ∈ r.asm.text, i.isEncodable := by
  have hok : (({} : Options).compile smallObjects).isOk := by decide +kernel
  have hobjects : smallObjects.objects = [2, 3] := by decide +kernel
  cases hr : ({} : Options).compile smallObjects with
  | error e =>
    rw [hr] at hok
    cases hok
  | ok r =>
    obtain ⟨⟨sizes, hsublist, -, htext⟩, hfits⟩ := compiled_unencodable hr
    have hsmall : ∀ size ∈ smallObjects.objects, size ≤ maxElements := by
      rw [hobjects]
      decide
    refine ⟨r, rfl, hobjects, ?_, hfits hsmall⟩
    rw [htext, List.flatMap_eq_nil_iff]
    exact fun size hsize => Asm.wideStores_eq_nil (hsmall size (hsublist.subset hsize))

end Options

end Choco
