import Choco.Proofs.Checkpoints
import Choco.Proofs.Execution

namespace Choco

variable {p : Program}

namespace IR

namespace Code

def Returns : Code → Prop
  | nil => False
  | leaf n rest => n.kind = .ret ∨ rest.Returns
  | each _ _ _ rest | fork _ _ _ rest => rest.Returns

def AllReturn : Code → Prop
  | each _ _ body rest => body.Returns ∧ rest.AllReturn
  | nil | leaf _ _ | fork _ _ _ _ => True

variable {c c' d : Code} {R : Node → Code → Prop} {types : Types}

theorem returns_append : (c ++ d).Returns ↔ c.Returns ∨ d.Returns := by
  induction c with
  | nil => simp [Returns]
  | leaf n rest ih =>
    rw [leaf_append, Returns, Returns, ih, or_assoc]
  | each n args body rest _ ih => exact ih
  | fork n first second rest _ _ ih => exact ih

theorem allReturn_append (hc : c.Functions) : (c ++ d).AllReturn ↔ c.AllReturn ∧ d.AllReturn := by
  induction hc with
  | nil => simp [AllReturn]
  | function id label ty args _ _ ih =>
    rw [each_append, AllReturn, AllReturn, ih, and_assoc]

theorem returns_relabel (θ : ValueId → ValueId) : (c.relabel θ).Returns ↔ c.Returns := by
  induction c with
  | nil => exact Iff.rfl
  | leaf n rest ih => exact or_congr_right ih
  | each n args body rest _ ih => exact ih
  | fork n first second rest _ _ ih => exact ih

theorem allReturn_relabel (θ : ValueId → ValueId) : (c.relabel θ).AllReturn ↔ c.AllReturn := by
  induction c with
  | nil | leaf | fork => exact Iff.rfl
  | each n args body rest _ ih => exact and_congr (returns_relabel θ) ih

theorem Returns.sweep (h : c.Returns) : c.sweep.Returns := by
  induction c with
  | nil => exact h
  | leaf n rest ih =>
    rw [Code.sweep]
    obtain hn | hrest := h
    · rw [if_neg fun hpure => by simp [hn, Kind.isPure] at hpure]
      exact .inl hn
    · split
      · exact ih hrest
      · exact .inr (ih hrest)
  | each n args body rest _ ih => exact ih h
  | fork n first second rest _ _ ih => exact ih h

theorem AllReturn.sweep (h : c.AllReturn) (hfunctions : c.Functions) : c.sweep.AllReturn := by
  induction hfunctions with
  | nil => trivial
  | function id label ty args _ _ ih => exact ⟨h.1.sweep, ih h.2⟩

theorem Maps.returns (h : c.Maps R d) (hR : ∀ n e, R n e → n.kind = .ret → e.Returns) (hc : c.Returns) :
    d.Returns := by
  induction c generalizing d with
  | nil => cases hc
  | leaf n rest ih =>
    obtain ⟨e, rest', rfl, he, hrest⟩ := h
    rw [returns_append]
    exact hc.imp (hR n e he) (ih hrest)
  | each n args body rest _ ih =>
    obtain ⟨body', rest', rfl, -, hrest⟩ := h
    have hreturns : rest'.Returns := ih hrest hc
    exact hreturns
  | fork n first second rest _ _ ih =>
    obtain ⟨first', second', rest', rfl, -, -, hrest⟩ := h
    have hreturns : rest'.Returns := ih hrest hc
    exact hreturns

theorem Maps.allReturn (h : c.Maps R d) (hfunctions : c.Functions)
    (hR : ∀ n e, R n e → n.kind = .ret → e.Returns) (hc : c.AllReturn) : d.AllReturn := by
  induction hfunctions generalizing d with
  | nil => exact h ▸ trivial
  | function id label ty args _ _ ih =>
    obtain ⟨body', rest', rfl, hbody, hrest⟩ := h
    exact ⟨hbody.returns hR hc.1, ih hrest hc.2⟩

end Code

open Code

section Stages

variable {types : Types} {c c' : Code} {n : Node} {e : Code}

theorem ReturnCode.returns (h : ReturnCode c) : c.Returns := by
  obtain ⟨v, id, id', rfl⟩ := h
  exact .inr (.inl rfl)

theorem FunctionsTree.allReturn {names : Names} {path : String} {decls : List Decl}
    (h : FunctionsTree types names path decls c) :
    c.AllReturn := by
  induction h with
  | nil => trivial
  | func _ _ _ _ _ hreturn hinner _ ihInner ih =>
    rw [allReturn_append hinner.functions]
    refine ⟨ihInner, ?_, ih⟩
    simp only [returns_append, hreturn.returns, or_true]
  | var _ _ ih | global _ _ ih | «nonlocal» _ _ ih => exact ih

theorem ProgramCode.allReturn (h : ProgramCode types p c) : c.AllReturn := by
  obtain ⟨names₁, names₂, c₁, c₂, c₃, inner, id, rfl, -, -, -, hfunctions, -, hreturn⟩ := h
  refine ⟨?_, hfunctions.tree.allReturn⟩
  simp only [returns_append, hreturn.returns, or_true]

theorem Unrolls.returns (h : Unrolls types c c') (hc : c.Returns) : c'.Returns := by
  induction h with
  | nil => exact hc
  | leaf _ ih => exact hc.imp_right ih
  | loop _ _ _ _ ih => exact returns_append.mpr (.inr (ih hc))
  | each _ _ _ _ ih => exact ih hc
  | fork _ _ _ _ _ ih => exact ih hc

theorem Unrolls.allReturn (h : Unrolls types c c') (hfunctions : c.Functions) (hc : c.AllReturn) :
    c'.AllReturn := by
  induction h with
  | nil => trivial
  | leaf | loop | fork => cases hfunctions
  | each _ hbody _ _ ih =>
    cases hfunctions with
    | function id label ty _ _ hrest => exact ⟨hbody.returns hc.1, ih hrest hc.2⟩

theorem LibraryCode.returns (h : LibraryCode types n e) (hn : n.kind = .ret) : e.Returns := by
  have huse : n.libraryUse types = .ok .keep := by rw [Node.libraryUse, hn]; rfl
  cases h with
  | keep => exact .inl hn
  | call routine h | negated routine h => cases huse.symm.trans h

theorem FoldCode.returns (h : FoldCode c n e) (hn : n.kind = .ret) : e.Returns := by
  cases h with
  | keep => exact .inl hn
  | sum id x y j k r hkind => cases hn.symm.trans hkind

theorem andThen_ne_next {r : Exit × State} {rest : Option Content → State → Exit × State}
    {value : Option Content} (h : ∀ v t, (rest v t).1 ≠ .next value) : (andThen r rest).1 ≠ .next value := by
  obtain ⟨exit, t⟩ := r
  cases exit with
  | next v => exact h v t
  | ret | trap | timeout => exact nofun

theorem Code.Shaped.exec_ne_next {host : Host} {fuel : Nat} (h : Shaped false c) (hc : c.Returns) (s : State)
    (value : Option Content) : (host.exec fuel c s).1 ≠ .next value := by
  generalize hy : false = y at h
  induction h generalizing s with
  | nil => cases hc
  | yield => cases hy
  | leaf hn _ ih =>
    rw [Host.exec_leaf hn.ne_yield]
    obtain hret | hrest := hc
    · cases hn with
      | ret => exact nofun
      | _ => cases hret
    · exact andThen_ne_next fun v t => ih hrest _ hy
  | loop _ _ _ _ _ _ ih => exact ih hc s hy
  | fork _ _ _ _ _ _ ih => exact andThen_ne_next fun v t => ih hc _ hy

end Stages

end IR

namespace Options

theorem StageCode.allReturn {options : Options} {stage : Stage} {m : IR.Module} {c : IR.Code}
    (h : options.StageCode p stage m c) :
    c.AllReturn := by
  induction h with
  | translation _ hcode => exact hcode.allReturn
  | loops h _ hunrolls ih => exact hunrolls.allReturn h.renders_translation.functions ih
  | libraryUses h hmaps _ _ ih =>
    exact (IR.Code.allReturn_relabel _).mpr
      (hmaps.allReturn h.renders_loops.functions (fun _ _ he => he.returns) ih)
  | unoptimized _ _ ih => exact ih
  | optimized h _ hmaps _ _ _ ih =>
    have hfunctions := h.renders_libraryUses.functions
    refine (IR.Code.allReturn_relabel _).mpr
      ((hmaps.allReturn hfunctions (fun _ _ he => he.returns) ih).sweep ?_)
    exact hmaps.functions (IR.localRewrite_fold _) hfunctions

end Options

end Choco
