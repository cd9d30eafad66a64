import Choco.Machine.Run
import Choco.Proofs.EmittedLabels

namespace Choco

variable {e : Error}

/-- The machine found a name without a meaning or with two. -/
def Error.isLinking : Error → Bool
  | .emulation _ (.duplicateLabel _) | .emulation _ (.undefinedLabel _) | .emulation _ (.undefinedSymbol _) =>
    true
  | _ => false

namespace Machine

open Asm (Assembly Instr Datum labelsOf)

variable {data : List Datum} {cursor size : UInt32} {a : Assembly} {image : Image}

section Labels

variable {known table : List (String × Nat)} {n : Nat} {text : List Instr} {i : Instr}

theorem labelsOf_cons_none (h : i.labelName? = none) : labelsOf (i :: text) = labelsOf text :=
  List.filterMap_cons_none h

theorem labelsOf_cons_some {name : String} (h : i.labelName? = some name) :
    labelsOf (i :: text) = name :: labelsOf text := List.filterMap_cons_some h

theorem exists_labelTable_iff : (∃ table, labelTable known n text = .ok table) ↔
    (labelsOf text).Nodup ∧ ∀ l ∈ labelsOf text, known.lookup l = none := by
  induction text generalizing known n with
  | nil => exact ⟨fun _ => ⟨List.nodup_nil, List.forall_mem_nil _⟩, fun _ => ⟨known, rfl⟩⟩
  | cons i rest ih =>
    rw [labelTable]
    cases hname : i.labelName? with
    | none =>
      rw [labelsOf_cons_none hname]
      exact ih
    | some name =>
      rw [labelsOf_cons_some hname, List.nodup_cons, List.forall_mem_cons]
      simp only
      split
      next hknown =>
        constructor
        · rintro ⟨table, ⟨⟩⟩
        · rintro ⟨-, hnone, -⟩
          rw [hnone] at hknown
          cases hknown
      next hknown =>
        have hknown := Option.not_isSome_iff_eq_none.mp hknown
        -- A later label is new beside `name` iff it is new and another label.
        have hcons (l : String) : List.lookup l ((name, n) :: known) = none ↔ l ≠ name ∧
            known.lookup l = none := by
          rw [List.lookup_cons]
          split
          next heq => simp [beq_iff_eq.mp heq]
          next hne => simp [beq_eq_false_iff_ne.mp hne]
        rw [ih]
        simp only [hcons]
        refine ⟨fun ⟨hnodup, hall⟩ => ⟨⟨fun hmem => (hall name hmem).1 rfl, hnodup⟩, hknown,
          fun l hl => (hall l hl).2⟩, fun ⟨⟨hmem, hnodup⟩, _, hall⟩ => ⟨hnodup, fun l hl => ⟨?_, hall l hl⟩⟩⟩
        rintro rfl
        exact hmem hl

theorem labelTable_eq_error (h : labelTable known n text = .error e) :
    ∃ pc name, e = .emulation pc (.duplicateLabel name) := by
  induction text generalizing known n with
  | nil => cases h
  | cons i rest ih =>
    rw [labelTable] at h
    split at h
    next => exact ih h
    next name _ =>
      split at h
      next =>
        cases h
        exact ⟨n, name, rfl⟩
      next => exact ih h

theorem lookup_labelTable (h : labelTable known n text = .ok table) (l : String) :
    (l ∉ labelsOf text → table.lookup l = known.lookup l) ∧
      ∀ (k : Nat) (i : Instr), text[k]? = some i → i.labelName? = some l → table.lookup l = some (n + k) := by
  induction text generalizing known n with
  | nil =>
    cases h
    exact ⟨fun _ => rfl, fun k i hk _ => by simp at hk⟩
  | cons i rest ih =>
    have hnodup := (exists_labelTable_iff.mp ⟨table, h⟩).1
    rw [labelTable] at h
    cases hname : i.labelName? with
    | none =>
      rw [hname] at h
      obtain ⟨hkeep, hfind⟩ := ih h
      rw [labelsOf_cons_none hname]
      refine ⟨hkeep, fun k j hk hj => ?_⟩
      cases k with
      | zero =>
        cases hk
        cases hname.symm.trans hj
      | succ k => rw [hfind k j hk hj, Nat.add_right_comm, Nat.add_assoc]
    | some name =>
      rw [hname] at h
      simp only at h
      split at h
      next => cases h
      next =>
        obtain ⟨hkeep, hfind⟩ := ih h
        rw [labelsOf_cons_some hname] at hnodup ⊢
        refine ⟨fun hl => ?_, fun k j hk hj => ?_⟩
        · obtain ⟨hne, hl⟩ := not_or.mp (List.mem_cons.not.mp hl)
          rw [hkeep hl, List.lookup_cons, beq_eq_false_iff_ne.mpr hne]
        · cases k with
          | zero =>
            cases hk
            cases hname.symm.trans hj
            rw [hkeep (List.nodup_cons.mp hnodup).1, List.lookup_cons, beq_self_eq_true]
            rfl
          | succ k => rw [hfind k j hk hj, Nat.add_right_comm, Nat.add_assoc]

theorem isSome_lookup_labelTable (h : labelTable known n text = .ok table) {l : String}
    (hl : l ∈ labelsOf text) :
    (table.lookup l).isSome := by
  obtain ⟨i, hi, hname⟩ := List.mem_filterMap.mp hl
  obtain ⟨k, hk⟩ := List.mem_iff_getElem?.mp hi
  rw [(lookup_labelTable h l).2 k i hk hname]
  rfl

end Labels

theorem align_eq_ok_iff {b : UInt32} : align cursor = .ok b ↔ cursor.toNat + 3 < UInt32.size ∧
    b = aligned cursor := by
  unfold align
  split
  next hlt => simp [hlt, eq_comm]
  next hlt => simp [hlt]

theorem align_eq_error (h : align cursor = .error e) : e = .aborted .addressOverflow := by
  unfold align at h
  split at h <;> cases h
  rfl

theorem addSize_eq_ok_iff {a b : UInt32} :
    addSize a size = .ok b ↔ a.toNat + size.toNat < UInt32.size ∧ b = a + size := by
  unfold addSize
  split
  next hlt => simp [hlt, eq_comm]
  next hlt => simp [hlt]

theorem addSize_eq_error {a : UInt32} (h : addSize a size = .error e) : e = .emulation 0 .dataTooLarge := by
  unfold addSize at h
  split at h <;> cases h
  rfl

theorem layoutData_cons {cursor' : UInt32} {item : Datum} {placed : List (Datum × UInt32)}
    (h : layoutData cursor (item :: data) = .ok (placed, cursor')) :
    ∃ next rest, cursor.toNat + 3 < UInt32.size ∧ addSize (aligned cursor) item.size = .ok next ∧
      layoutData next data = .ok (rest, cursor') ∧ placed = (item, aligned cursor) :: rest := by
  obtain ⟨address, haddress, h⟩ := Outcome.bind_eq_ok.mp h
  obtain ⟨next, hnext, h⟩ := Outcome.bind_eq_ok.mp h
  obtain ⟨⟨rest, cursor''⟩, hrest, h⟩ := Outcome.bind_eq_ok.mp h
  cases h
  obtain ⟨hlt, rfl⟩ := align_eq_ok_iff.mp haddress
  exact ⟨next, rest, hlt, hnext, hrest, rfl⟩

theorem layoutData_items {cursor' : UInt32} {items : List (Datum × UInt32)}
    (h : layoutData cursor data = .ok (items, cursor')) : items.map Prod.fst = data := by
  induction data generalizing cursor items with
  | nil =>
    cases h
    rfl
  | cons item rest ih =>
    obtain ⟨next, placed, -, -, hrest, rfl⟩ := layoutData_cons h
    exact congrArg (List.cons item) (ih hrest)

theorem layoutData_isLinking (h : layoutData cursor data = .error e) : e.isLinking = false := by
  induction data generalizing cursor with
  | nil => cases h
  | cons item rest ih =>
    rcases Outcome.bind_eq_error.mp h with halign | ⟨address, -, h⟩
    · rw [align_eq_error halign]
      rfl
    rcases Outcome.bind_eq_error.mp h with hsize | ⟨next, -, h⟩
    · rw [addSize_eq_error hsize]
      rfl
    rcases Outcome.bind_eq_error.mp h with hrest | ⟨placed, -, h⟩
    · exact ih hrest
    · cases h

section Writing

variable {m m' : Memory} {address : Nat} {bytes : List UInt8} {p : Datum × UInt32}
  {items : List (Datum × UInt32)}

theorem copyBytes_eq_ok_iff :
    copyBytes m address bytes = .ok m' ↔ address + bytes.length ≤ m.size ∧ m' = m.setBytes address bytes := by
  unfold copyBytes
  split
  next hle => simp [hle, eq_comm]
  next hle => simp [hle]

theorem copyBytes_eq_error (h : copyBytes m address bytes = .error e) :
    m.size < address + bytes.length ∧ ∃ cause, e = .aborted cause := by
  unfold copyBytes at h
  split at h
  next => cases h
  next hle =>
    cases h
    exact ⟨Nat.not_le.mp hle, _, rfl⟩

theorem size_writeItem (h : writeItem m p = .ok m') : m'.size = m.size := by
  obtain ⟨⟨name, contents⟩, address⟩ := p
  cases contents with
  | space _ =>
    cases h
    rfl
  | word _ | ascii _ =>
    obtain ⟨-, rfl⟩ := copyBytes_eq_ok_iff.mp h
    exact Memory.size_setBytes _ _ _

theorem writeItem_eq_error (h : writeItem m p = .error e) : ∃ cause, e = .aborted cause := by
  obtain ⟨⟨name, contents⟩, address⟩ := p
  cases contents with
  | space _ => cases h
  | word _ | ascii _ => exact (copyBytes_eq_error h).2

theorem size_foldlM_writeItem (h : items.foldlM writeItem m = .ok m') : m'.size = m.size := by
  induction items generalizing m with
  | nil =>
    cases h
    rfl
  | cons p items ih =>
    obtain ⟨m₁, hfirst, hrest⟩ := Outcome.bind_eq_ok.mp h
    exact (ih hrest).trans (size_writeItem hfirst)

theorem foldlM_writeItem_eq_error (h : items.foldlM writeItem m = .error e) :
    ∃ cause, e = .aborted cause := by
  induction items generalizing m with
  | nil => cases h
  | cons p items ih =>
    rcases Outcome.bind_eq_error.mp h with hfirst | ⟨m₁, -, hrest⟩
    · exact writeItem_eq_error hfirst
    · exact ih hrest

end Writing

theorem Image.load_eq_ok_iff : Image.load a = .ok image ↔
    ∃ labels items cursor bottom top memory start, labelTable [] 0 a.text = .ok labels ∧
      layoutData dataBase a.data = .ok (items, cursor) ∧ align cursor = .ok bottom ∧
        addSize bottom stackSize = .ok top ∧
      items.foldlM writeItem { size := top.toNat } = .ok memory ∧ labels.lookup Library.start = some start ∧
      image = ⟨(a.text.map (resolve labels (items.map fun item => (item.1.name, item.2)).reverse)).toArray,
        memory, start⟩ := by
  constructor
  · intro h
    obtain ⟨labels, hlabels, h⟩ := Outcome.bind_eq_ok.mp h
    obtain ⟨⟨items, cursor⟩, hitems, h⟩ := Outcome.bind_eq_ok.mp h
    obtain ⟨bottom, hbottom, h⟩ := Outcome.bind_eq_ok.mp h
    obtain ⟨top, htop, h⟩ := Outcome.bind_eq_ok.mp h
    obtain ⟨memory, hmemory, h⟩ := Outcome.bind_eq_ok.mp h
    simp only at h
    split at h
    next start hstart =>
      cases h
      exact ⟨labels, items, cursor, bottom, top, memory, start, hlabels, hitems, hbottom, htop, hmemory,
        hstart, rfl⟩
    next => cases h
  · rintro ⟨labels, items, cursor, bottom, top, memory, start, hlabels, hitems, hbottom, htop, hmemory,
      hstart, rfl⟩
    rw [load, Outcome.bind_ok hlabels, Outcome.bind_ok hitems]
    simp only [Outcome.bind_ok hbottom, Outcome.bind_ok htop, Outcome.bind_ok hmemory, hstart]
    rfl

theorem Image.size_of_load (hload : Image.load a = .ok image) : image.memory.size < UInt32.size := by
  obtain ⟨labels, items, cursor, bottom, top, memory, start, -, -, -, -, hmemory, -, rfl⟩ :=
    Image.load_eq_ok_iff.mp hload
  exact (size_foldlM_writeItem hmemory).trans_lt top.toNat_lt

theorem instr_resolve {labels : List (String × Nat)} {symbols : List (String × UInt32)} (i : Instr) :
    (resolve labels symbols i).instr = i := by
  unfold resolve
  split <;> rfl

def Line.Resolved (line : Line) : Prop :=
  match line.instr.opcode with
  | .branch _ | .j | .jal => line.place.isSome
  | .la => line.address.isSome
  | _ => True

theorem isSome_lookup_of_mem {α : Type} {l : List (String × α)} {x : String} (h : x ∈ l.map Prod.fst) :
    (l.lookup x).isSome := by
  induction l with
  | nil => cases h
  | cons p l ih =>
    rw [List.lookup_cons]
    split
    next => rfl
    next hne => exact ih ((List.mem_cons.mp h).resolve_left (beq_eq_false_iff_ne.mp hne))

theorem Image.load_resolved (h : Image.load a = .ok image)
    (hlinked : ∀ i ∈ a.text, i.Linked (· ∈ a.labels) (· ∈ a.data.map Datum.name)) :
    ∀ line ∈ image.code, line.Resolved := by
  obtain ⟨labels, items, cursor, -, -, memory, start, hlabels, hitems, -, -, -, -, rfl⟩ :=
    Image.load_eq_ok_iff.mp h
  intro line hline
  obtain ⟨i, hi, rfl⟩ := List.mem_map.mp (List.mem_toArray.mp hline)
  have hi := hlinked i hi
  have hplace (symbols : List (String × UInt32)) (h : ∃ name ∈ i.target?, name ∈ a.labels) :
      (resolve labels symbols i).place.isSome := by
    obtain ⟨name, htarget, hname⟩ := h
    rw [resolve, Option.mem_def.mp htarget]
    exact isSome_lookup_labelTable hlabels hname
  have haddress (symbols : List (String × UInt32))
      (hsymbols : ∀ name ∈ a.data.map Datum.name, name ∈ symbols.map Prod.fst)
      (h : ∃ name ∈ i.target?, name ∈ a.data.map Datum.name) : (resolve labels symbols i).address.isSome := by
    obtain ⟨name, htarget, hname⟩ := h
    rw [resolve, Option.mem_def.mp htarget]
    exact isSome_lookup_of_mem (hsymbols name hname)
  unfold Instr.Linked at hi
  rw [Line.Resolved, instr_resolve]
  cases hop : i.opcode with
  | branch cond | j | jal =>
    rw [hop] at hi
    exact hplace _ hi
  | la =>
    rw [hop] at hi
    refine haddress _ (fun name hname => ?_) hi
    rw [List.map_reverse, List.mem_reverse, List.map_map]
    rw [← layoutData_items hitems, List.map_map] at hname
    exact hname
  | li | lw | sw | lbu | sb | alu op | addi | andi | slli | seqz | snez | mv | ret | ecall | label => trivial

section Runs

variable {stdin : Array UInt8} {m m' : Machine} {e : Error} {base : Int32} {line : Line}

theorem fail_isLinking {fault : MachineFault} (h : m.fail fault = .fault e m')
    (hfault : (Error.emulation 0 fault).isLinking = false) :
    e.isLinking = false := by
  cases h
  cases fault <;> first | rfl | cases hfault

theorem access_isLinking {offset : Int32} {length : Nat} {k : Nat → Step}
    (h : m.access base offset length k = .fault e m') (hk : ∀ a, k a ≠ .fault e m') :
    e.isLinking = false := by
  unfold access at h
  dsimp only at h
  split at h
  · exact fail_isLinking h rfl
  · split at h
    · exact absurd h (hk _)
    · exact fail_isLinking h rfl

theorem jump_ne_fault {k : Nat → Machine} (hline : line.place.isSome) : m.jump line k ≠ .fault e m' := by
  obtain ⟨pc, hpc⟩ := Option.isSome_iff_exists.mp hline
  rw [jump, hpc]
  exact Step.noConfusion

theorem accessBytes_isLinking {length : Int32} {negative : MachineFault} {k : Nat → Nat → Step}
    (hnegative : (Error.emulation 0 negative).isLinking = false)
    (hk : ∀ a n, k a n = .fault e m' → e.isLinking = false)
    (h : m.accessBytes base length negative k = .fault e m') : e.isLinking = false := by
  unfold accessBytes at h
  split at h
  · exact fail_isLinking h rfl
  · split at h
    · exact fail_isLinking h hnegative
    · exact hk _ _ h

theorem systemCall_isLinking (h : m.systemCall stdin = .fault e m') : e.isLinking = false := by
  unfold systemCall at h
  simp only at h
  split at h
  · cases h
  split at h
  · unfold writeCall at h
    split at h
    · exact fail_isLinking h rfl
    · refine accessBytes_isLinking rfl (fun a n hk => ?_) h
      split at hk
      · cases hk
      · exact fail_isLinking hk rfl
  split at h
  · unfold readCall at h
    split at h
    · exact fail_isLinking h rfl
    · refine accessBytes_isLinking rfl (fun a n hk => ?_) h
      dsimp only at hk
      split at hk
      · cases hk
      · exact fail_isLinking hk rfl
  · exact fail_isLinking h rfl

theorem exec_isLinking (hline : line.Resolved) (h : m.exec stdin line = .fault e m') :
    e.isLinking = false := by
  unfold exec at h
  unfold Line.Resolved at hline
  dsimp only at h
  split at h
  case h_3 hop =>
    rw [hop] at hline
    obtain ⟨a, ha⟩ := Option.isSome_iff_exists.mp hline
    rw [ha] at h
    cases h
  case h_4 | h_5 | h_6 | h_7 => exact access_isLinking h fun _ => nofun
  case h_15 hop =>
    rw [hop] at hline
    split at h
    · exact absurd h (jump_ne_fault hline)
    · cases h
  case h_16 hop | h_17 hop =>
    rw [hop] at hline
    exact absurd h (jump_ne_fault hline)
  case h_18 =>
    split at h
    · exact fail_isLinking h rfl
    · cases h
  case h_19 => exact systemCall_isLinking h
  all_goals cases h

theorem runFor_isLinking {code : Array Line} (hcode : ∀ line ∈ code, line.Resolved) {limit n : Nat}
    (h : runFor code stdin limit n m = .error e) : e.isLinking = false := by
  induction n generalizing m with
  | zero =>
    cases h
    rfl
  | succ n ih =>
    rw [runFor] at h
    cases hstep : m.step code stdin with
    | next m' =>
      rw [hstep] at h
      exact ih h
    | exit c m' =>
      rw [hstep] at h
      cases h
    | fault e' m' =>
      rw [hstep] at h
      cases h
      unfold step at hstep
      split at hstep
      next line hline => exact exec_isLinking (hcode line (Array.mem_of_getElem? hline)) hstep
      next => exact fail_isLinking hstep rfl

end Runs

end Machine

namespace Asm.Assembly

open Machine

variable {a : Assembly}

theorem run_isLinking (hnodup : a.labels.Nodup)
    (hlinked : ∀ i ∈ a.text, i.Linked (· ∈ a.labels) (· ∈ a.data.map Datum.name))
    {stdin : Array UInt8} {maxSteps : Nat} (h : a.run stdin maxSteps = .error e) : e.isLinking = false := by
  rcases Outcome.bind_eq_error.mp h with hload | ⟨image, hload, hrun⟩
  · obtain ⟨table, htable⟩ := exists_labelTable_iff.mpr ⟨hnodup, fun _ _ => List.lookup_nil⟩
    rw [Image.load, Outcome.bind_ok htable] at hload
    rcases Outcome.bind_eq_error.mp hload with hdata | ⟨⟨items, cursor⟩, -, hload⟩
    · exact layoutData_isLinking hdata
    rcases Outcome.bind_eq_error.mp hload with halign | ⟨bottom, -, hload⟩
    · rw [align_eq_error halign]
      rfl
    rcases Outcome.bind_eq_error.mp hload with hsize | ⟨top, -, hload⟩
    · rw [addSize_eq_error hsize]
      rfl
    rcases Outcome.bind_eq_error.mp hload with hwrite | ⟨memory, -, hload⟩
    · obtain ⟨cause, rfl⟩ := foldlM_writeItem_eq_error hwrite
      rfl
    simp only at hload
    split at hload
    · cases hload
    · cases hload
      rfl
  · exact runFor_isLinking (Image.load_resolved hload hlinked) hrun

theorem run_of_labelTable (h : labelTable [] 0 a.text = .error e) (stdin : Array UInt8) (maxSteps : Nat) :
    a.run stdin maxSteps = .error e := by
  have hload : Image.load a = .error e := by
    rw [Image.load, h]
    rfl
  rw [run, hload]
  rfl

theorem run_of_not_nodup (h : ¬ a.labels.Nodup) :
    ∃ pc name, ∀ stdin maxSteps, a.run stdin maxSteps = .error (.emulation pc (.duplicateLabel name)) := by
  cases htable : labelTable [] 0 a.text with
  | ok table => exact absurd (exists_labelTable_iff.mp ⟨table, htable⟩).1 h
  | error e =>
    obtain ⟨pc, name, rfl⟩ := labelTable_eq_error htable
    exact ⟨pc, name, run_of_labelTable htable⟩

end Asm.Assembly

end Choco
