import Choco.Proofs.Allocator

namespace Choco

/-- Registers that a routine may change. -/
def Asm.Reg.isScratch : Asm.Reg → Bool
  | .t0 | .t1 | .t2 | .t3 | .t4 | .t5 | .t6 | .a0 | .a1 | .a2 | .a3 | .a4 | .a5 | .a6 | .a7 => true
  | _ => false

namespace Machine

open Asm (Assembly Instr Reg)
open Asm.Instr

section Loading

variable {labels : List (String × Nat)} {symbols : List (String × UInt32)} {code : Array Line} {pc : Nat}
  {a : Assembly} {image : Image} {stdin : Array UInt8} {s s' : Machine}

/-- A loop that tests its condition at its head. What holds of the elements that are left carries it from
round to round. -/
theorem Leads.loop {α : Type} (P : List α → View → Prop) {cond : Cond} {r r' : Reg} {l done : String}
    {body : List Instr} {pc' : Nat}
    (hcode : Placed labels symbols code pc (Instr.label l :: branch cond r r' done :: (body ++ [j l])))
    (hdone : labels.lookup done = some pc') (hexit : ∀ v, P [] v → cond.holds (v.regs r) (v.regs r') = true)
    (hround : ∀ x xs v, P (x :: xs) v → cond.holds (v.regs r) (v.regs r') = false ∧
      ∃ v', Passage labels symbols stdin body v v' ∧ P xs v') {xs : List α} {v : View} (h : P xs v) :
    ∃ v', Leads code stdin pc v pc' v' ∧ P [] v' := by
  have hloop : labels.lookup l = some pc := hcode.lookup 0 _ _ rfl rfl
  obtain ⟨-, hbranch⟩ := codeAt_cons.mp hcode.code
  obtain ⟨hbody, hjump⟩ := codeAt_append.mp (codeAt_cons.mp hbranch).2
  induction xs generalizing v with
  | nil => exact ⟨v, (Leads.label hcode.code).trans (.taken hbranch (hexit v h) hdone), h⟩
  | cons x xs ih =>
    obtain ⟨hstay, v₁, hpassage, hrest⟩ := hround x xs v h
    obtain ⟨v', hleads, hend⟩ := ih hrest
    exact ⟨v', (Leads.label hcode.code).trans <| (Leads.passed hbranch hstay).trans <|
      (hpassage.leads hbody).trans <| (Leads.jump hjump hloop).trans hleads, hend⟩

/-- A machine that may run the program of an image. -/
structure Image.Hosts (image : Image) (s : Machine) : Prop where
  zero : s.read .zero = 0
  size : s.memory.size = image.memory.size

theorem Image.hosts_ofImage (image : Image) : image.Hosts (ofImage image) where
  zero := read_zero_ofImage image
  size := congrArg Memory.size (memory_write _ _ _)

theorem Image.Hosts.step (h : image.Hosts s) (hstep : s.step code stdin = .next s') : image.Hosts s' :=
  ⟨(kept_of_step hstep).zero.trans h.zero, (kept_of_step hstep).size.trans h.size⟩

theorem Image.Hosts.reaches (h : image.Hosts s) (hreaches : Reaches code stdin s s') : image.Hosts s' := by
  induction hreaches with
  | refl => exact h
  | tail _ hstep ih => exact ih.step hstep

end Loading

/-- A routine that was entered in `s` has come back in `t`. -/
structure Returned (code : Array Line) (stdin : Array UInt8) (s t : Machine) : Prop where
  reaches : Reaches code stdin s t
  pc : t.pc = (s.read .ra).toInt.toNat
  regs : ∀ r, r.isScratch = false → t.read r = s.read r

end Machine

end Choco
