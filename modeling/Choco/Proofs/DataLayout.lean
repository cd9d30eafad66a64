import Choco.Proofs.Loading
import Choco.Proofs.StoredObjects

namespace Choco

variable {item : Datum}

/-- The bytes of an item. -/
def Asm.Datum.bytes (item : Datum) : List UInt8 :=
  match item.kind with
  | .space n => List.replicate n.toNat 0
  | .word w => Word.toBytes w
  | .ascii s => (Text.encodeUtf8 s).toList

/-- Only a text of the whole address space has another size than its number of bytes. -/
theorem Asm.Datum.toNat_size (h : item.bytes.length < UInt32.size) : item.size.toNat = item.bytes.length := by
  obtain ⟨name, contents⟩ := item
  cases contents with
  | space n => exact List.length_replicate.symm
  | word w => rfl
  | ascii s => exact UInt32.toNat_ofNat_of_lt' h

namespace Machine

open Asm (Assembly Datum labelsOf)

/-- The next multiple of four in a space without an end. -/
def roundUp (n : Nat) : Nat := (n + 3) / 4 * 4

/-- Where items end that stand one behind the other in a space without an end. -/
def ends (cursor : Nat) : List Datum → List Nat
  | [] => []
  | item :: rest => (roundUp cursor + item.size.toNat) :: ends (roundUp cursor + item.size.toNat) rest

/-- The items and the stack behind them end within the address space. -/
def Fits (data : List Datum) : Prop :=
  ∀ e ∈ ends dataBase.toNat data, roundUp e + stackSize.toNat < UInt32.size

/-- The end of the first item behind which there is no multiple of four left. -/
def overrun? (cursor : Nat) (data : List Datum) : Option Nat :=
  (ends cursor data).find? fun e => UInt32.size ≤ e + 3

/-- The items have these addresses in the image. -/
structure Image.LaysOut (image : Image) (a : Assembly) (placed : List (Datum × UInt32)) : Prop where
  items : placed.map Prod.fst = a.data
  names : ∀ line ∈ image.code, ∀ name, line.instr.target? = some name →
    line.address = (placed.map fun p => (p.1.name, p.2)).reverse.lookup name
  aligned : ∀ p ∈ placed, p.2.toNat % 4 = 0
  low : ∀ p ∈ placed, dataBase ≤ p.2
  ordered : placed.Pairwise fun p q => p.2.toNat + p.1.bytes.length ≤ q.2.toNat
  high : ∀ p ∈ placed, p.2.toNat + p.1.bytes.length + stackSize.toNat ≤ image.memory.size
  sp : ((ofImage image).read .sp).toUInt32.toNat = image.memory.size
  bytes : ∀ p ∈ placed, image.memory.bytes p.2.toNat p.1.bytes.length = p.1.bytes

section Placing

variable {cursor cursor' next : UInt32} {n n' e : Nat} {data : List Datum} {placed : List (Datum × UInt32)}
  {p : Datum × UInt32}

theorem toNat_aligned_of_lt (h : cursor.toNat + 3 < UInt32.size) :
    (aligned cursor).toNat = roundUp cursor.toNat := by
  rw [toNat_aligned, Nat.mod_eq_of_lt h]
  rfl

theorem le_roundUp (n : Nat) : n ≤ roundUp n := by
  unfold roundUp
  omega

theorem roundUp_le_roundUp (h : n ≤ n') : roundUp n ≤ roundUp n' :=
  Nat.mul_le_mul_right 4 (Nat.div_le_div_right (Nat.add_le_add_right h 3))

theorem toNat_top (hcursor : cursor.toNat + 3 < UInt32.size)
    (hlt : (aligned cursor).toNat + stackSize.toNat < UInt32.size) :
    (aligned cursor + stackSize).toNat = roundUp cursor.toNat + stackSize.toNat := by
  rw [UInt32.toNat_add, toNat_aligned_of_lt hcursor] at *
  exact Nat.mod_eq_of_lt hlt

theorem addSize_item_iff (hcursor : cursor.toNat + 3 < UInt32.size) :
    addSize (aligned cursor) item.size = .ok next ↔ next.toNat = roundUp cursor.toNat + item.size.toNat := by
  rw [addSize_eq_ok_iff, ← toNat_aligned_of_lt hcursor]
  constructor
  · rintro ⟨hlt, rfl⟩
    rw [UInt32.toNat_add, Nat.mod_eq_of_lt hlt]
  · intro h
    have hlt : (aligned cursor).toNat + item.size.toNat < UInt32.size := h ▸ next.toNat_lt
    refine ⟨hlt, UInt32.toNat_inj.mp ?_⟩
    rw [h, UInt32.toNat_add, Nat.mod_eq_of_lt hlt]

theorem exists_addSize_item (hcursor : cursor.toNat + 3 < UInt32.size)
    (h : roundUp cursor.toNat + item.size.toNat < UInt32.size) :
    ∃ next, addSize (aligned cursor) item.size = .ok next ∧
      next.toNat = roundUp cursor.toNat + item.size.toNat := by
  have hnext := UInt32.toNat_ofNat_of_lt' h
  exact ⟨_, (addSize_item_iff hcursor).mpr hnext, hnext⟩

theorem layoutData_eq_cons (hcursor : cursor.toNat + 3 < UInt32.size)
    (hnext : addSize (aligned cursor) item.size = .ok next) :
    layoutData cursor (item :: data) =
      (layoutData next data >>= fun r => .ok ((item, aligned cursor) :: r.1, r.2)) := by
  rw [layoutData, Outcome.bind_ok (align_eq_ok_iff.mpr ⟨hcursor, rfl⟩), Outcome.bind_ok hnext]
  rfl

/-- The items stand at multiples of four, each behind the one before it, from the address `n` on and not
beyond `n'`. -/
def Spaced (n n' : Nat) : List (Datum × UInt32) → Prop
  | [] => n ≤ n'
  | p :: rest => n ≤ p.2.toNat ∧ p.2.toNat % 4 = 0 ∧ Spaced (p.2.toNat + p.1.size.toNat) n' rest

namespace Spaced

theorem le (h : Spaced n n' placed) : n ≤ n' := by
  induction placed generalizing n with
  | nil => exact h
  | cons p rest ih =>
    have hrest := ih h.2.2
    have hfirst := h.1
    omega

theorem mem (h : Spaced n n' placed) (hp : p ∈ placed) :
    n ≤ p.2.toNat ∧ p.2.toNat % 4 = 0 ∧ p.2.toNat + p.1.size.toNat ≤ n' := by
  induction placed generalizing n with
  | nil => cases hp
  | cons q rest ih =>
    obtain ⟨hfirst, haligned, hrest⟩ := h
    obtain rfl | hp := List.mem_cons.mp hp
    · exact ⟨hfirst, haligned, hrest.le⟩
    · obtain ⟨hlow, hmem⟩ := ih hrest hp
      exact ⟨by omega, hmem⟩

theorem pairwise (h : Spaced n n' placed) :
    placed.Pairwise fun p q => p.2.toNat + p.1.size.toNat ≤ q.2.toNat := by
  induction placed generalizing n with
  | nil => exact .nil
  | cons p rest ih => exact .cons (fun q hq => (h.2.2.mem hq).1) (ih h.2.2)

end Spaced

theorem layoutData_spaced (h : layoutData cursor data = .ok (placed, cursor')) :
    Spaced cursor.toNat cursor'.toNat placed ∧ cursor'.toNat ∈ cursor.toNat :: ends cursor.toNat data ∧
      ∀ e ∈ ends cursor.toNat data, e ≤ cursor'.toNat := by
  induction data generalizing cursor placed with
  | nil =>
    cases h
    exact ⟨Nat.le_refl _, List.mem_singleton_self _, List.forall_mem_nil _⟩
  | cons item data ih =>
    obtain ⟨next, rest, hcursor, hnext, hrest, rfl⟩ := layoutData_cons h
    have hvalue := (addSize_item_iff hcursor).mp hnext
    obtain ⟨hspaced, hmem, hle⟩ := ih hrest
    have haddress := toNat_aligned_of_lt hcursor
    rw [ends, ← hvalue]
    refine ⟨⟨haddress ▸ le_roundUp _, ?_, ?_⟩, List.mem_cons_of_mem _ hmem,
      List.forall_mem_cons.mpr ⟨?_, hle⟩⟩
    · rw [haddress, roundUp, Nat.mul_mod_left]
    · rwa [haddress, ← hvalue]
    · exact hspaced.le

theorem exists_layoutData (hcursor : cursor.toNat + 3 < UInt32.size)
    (hends : ∀ e ∈ ends cursor.toNat data, e + 3 < UInt32.size) :
    ∃ placed cursor', layoutData cursor data = .ok (placed, cursor') ∧ cursor'.toNat + 3 < UInt32.size := by
  induction data generalizing cursor with
  | nil => exact ⟨[], cursor, rfl, hcursor⟩
  | cons item data ih =>
    obtain ⟨hfirst, hends⟩ := List.forall_mem_cons.mp hends
    obtain ⟨next, hnext, hvalue⟩ := exists_addSize_item hcursor (Nat.lt_of_add_right_lt hfirst)
    rw [← hvalue] at hfirst hends
    obtain ⟨placed, cursor', hrest, hend⟩ := ih hfirst hends
    refine ⟨(item, aligned cursor) :: placed, cursor', ?_, hend⟩
    rw [layoutData_eq_cons hcursor hnext, hrest]
    rfl

/-- What becomes of items that overrun: no address is left for the next one, or they do not even end in the
address space. -/
theorem layoutData_of_overrun (hcursor : cursor.toNat + 3 < UInt32.size)
    (h : overrun? cursor.toNat data = some e) :
    (layoutData cursor data >>= fun r => align r.2) =
      .error (if e < UInt32.size then .aborted .addressOverflow else .emulation 0 .dataTooLarge) := by
  induction data generalizing cursor with
  | nil => cases h
  | cons item data ih =>
    rw [overrun?, ends, List.find?_cons] at h
    by_cases hend : roundUp cursor.toNat + item.size.toNat < UInt32.size
    · obtain ⟨next, hnext, hvalue⟩ := exists_addSize_item hcursor hend
      rw [← hvalue] at h
      rw [layoutData_eq_cons hcursor hnext, bind_assoc]
      split at h
      next hover =>
        cases h
        have habort : align next = .error (.aborted .addressOverflow) :=
          if_neg (Nat.not_lt.mpr (of_decide_eq_true hover))
        rw [if_pos next.toNat_lt]
        -- The cursor is rounded up once more, whether an item follows or the stack.
        cases data with
        | nil => exact habort
        | cons item' rest =>
          rw [layoutData, habort]
          rfl
      next hover => exact ih (Nat.not_le.mp (of_decide_eq_false hover)) h
    · have hover : UInt32.size ≤ roundUp cursor.toNat + item.size.toNat + 3 :=
        Nat.le_add_right_of_le (Nat.not_lt.mp hend)
      rw [decide_eq_true hover] at h
      cases h
      have hfail : addSize (aligned cursor) item.size = .error (.emulation 0 .dataTooLarge) :=
        if_neg (by rwa [toNat_aligned_of_lt hcursor])
      rw [if_neg hend, layoutData, Outcome.bind_ok (align_eq_ok_iff.mpr ⟨hcursor, rfl⟩), hfail]
      rfl

theorem overrun?_eq_none_iff : overrun? n data = none ↔ ∀ e ∈ ends n data, e + 3 < UInt32.size := by
  simp [overrun?]

theorem Fits.overrun? (h : Fits data) : overrun? dataBase.toNat data = none := by
  refine overrun?_eq_none_iff.mpr fun e he => ?_
  have hfits := h e he
  have hle := le_roundUp e
  have hstack : stackSize.toNat = 1048576 := rfl
  omega

end Placing

section Writing

variable {m m' : Memory} {n n' : Nat} {placed : List (Datum × UInt32)} {p : Datum × UInt32}

theorem exists_writeItem_iff (hfits : p.2.toNat + p.1.size.toNat ≤ m.size) (hsize : m.size < UInt32.size) :
    (∃ m', writeItem m p = .ok m') ↔ p.1.bytes.length < UInt32.size := by
  have hcopy : (∃ m', copyBytes m p.2.toNat p.1.bytes = .ok m') ↔ p.1.bytes.length < UInt32.size := by
    simp only [copyBytes_eq_ok_iff, exists_and_left, exists_eq, and_true]
    refine ⟨fun hle => by omega, fun hlt => ?_⟩
    rwa [← Datum.toNat_size hlt]
  obtain ⟨⟨name, contents⟩, address⟩ := p
  cases contents with
  | space size => exact ⟨fun _ => List.length_replicate.trans_lt size.toNat_lt, fun _ => ⟨m, rfl⟩⟩
  | word _ | ascii _ => exact hcopy

theorem exists_foldlM_writeItem_iff (h : Spaced n n' placed) (hn : n' ≤ m.size)
    (hsize : m.size < UInt32.size) :
    (∃ m', placed.foldlM writeItem m = .ok m') ↔ ∀ p ∈ placed, p.1.bytes.length < UInt32.size := by
  induction placed generalizing n m with
  | nil => exact ⟨fun _ => List.forall_mem_nil _, fun _ => ⟨m, rfl⟩⟩
  | cons p rest ih =>
    have hfirst := exists_writeItem_iff (Nat.le_trans (h.mem (List.mem_cons_self ..)).2.2 hn) hsize
    rw [List.forall_mem_cons, ← hfirst]
    constructor
    · rintro ⟨m', hm'⟩
      obtain ⟨m₁, hm₁, hm'⟩ := Outcome.bind_eq_ok.mp hm'
      have hsame := size_writeItem hm₁
      exact ⟨⟨m₁, hm₁⟩, (ih h.2.2 (hsame ▸ hn) (hsame ▸ hsize)).mp ⟨m', hm'⟩⟩
    · rintro ⟨⟨m₁, hm₁⟩, hrest⟩
      have hsame := size_writeItem hm₁
      obtain ⟨m', hm'⟩ := (ih h.2.2 (hsame ▸ hn) (hsame ▸ hsize)).mpr hrest
      exact ⟨m', Outcome.bind_eq_ok.mpr ⟨m₁, hm₁, hm'⟩⟩

theorem written_writeItem (hzero : ∀ i, p.2.toNat ≤ i → m.get i = 0) (h : writeItem m p = .ok m') :
    m.Written p.2.toNat p.1.bytes m' := by
  obtain ⟨⟨name, contents⟩, address⟩ := p
  cases contents with
  | space size =>
    cases h
    refine ⟨List.eq_replicate_iff.mpr ⟨?_, fun b hb => ?_⟩, fun _ _ => rfl, rfl⟩
    · simp [Memory.bytes, Datum.bytes]
    · obtain ⟨i, hi, rfl⟩ := List.mem_map.mp hb
      exact hzero i (List.mem_range'_1.mp hi).1
  | word _ | ascii _ =>
    obtain ⟨-, rfl⟩ := copyBytes_eq_ok_iff.mp h
    exact Memory.written_setBytes _ _ _

theorem bytes_foldlM_writeItem (hspaced : Spaced n n' placed)
    (hlengths : ∀ p ∈ placed, p.1.bytes.length < UInt32.size) (hzero : ∀ i, n ≤ i → m.get i = 0)
    (h : placed.foldlM writeItem m = .ok m') :
    (∀ p ∈ placed, m'.bytes p.2.toNat p.1.bytes.length = p.1.bytes) ∧ ∀ i, i < n ∨ n' ≤ i →
      m'.get i = m.get i := by
  induction placed generalizing n m with
  | nil =>
    cases h
    exact ⟨List.forall_mem_nil _, fun _ _ => rfl⟩
  | cons p rest ih =>
    obtain ⟨hlength, hlengths⟩ := List.forall_mem_cons.mp hlengths
    obtain ⟨hfirst, -, hrest⟩ := hspaced
    rw [Datum.toNat_size hlength] at hrest
    have hend := hrest.le
    obtain ⟨m₁, hm₁, hm'⟩ := Outcome.bind_eq_ok.mp h
    have hwritten := written_writeItem (fun i hi => hzero i (Nat.le_trans hfirst hi)) hm₁
    obtain ⟨hbytes, hkept⟩ := ih hrest hlengths
      (fun i hi => (hwritten.get i (.inr hi)).trans (hzero i (by omega))) hm'
    refine ⟨List.forall_mem_cons.mpr ⟨?_, hbytes⟩, fun i hi => ?_⟩
    · exact (Memory.bytes_congr fun i _ hi => hkept i (.inl hi)).trans hwritten.bytes
    · exact (hkept i (by omega)).trans (hwritten.get i (by omega))

theorem Memory.get_empty (size i : Nat) : ({ size } : Memory).get i = 0 := by
  change Cell.get {} i = 0
  unfold Cell.get
  split <;> rfl

end Writing

section Loading

variable {a : Assembly} {image : Image} {placed : List (Datum × UInt32)}
  {labels : List (String × Nat)} {e : Nat}

/-- What a load that succeeds has placed and written. -/
structure Image.Holds (image : Image) (a : Assembly) (placed : List (Datum × UInt32)) (stop : Nat) :
    Prop where
  items : placed.map Prod.fst = a.data
  code : ∃ labels, image.code =
    (a.text.map (resolve labels (placed.map fun item => (item.1.name, item.2)).reverse)).toArray
  spaced : Spaced dataBase.toNat stop placed
  ends : ∀ e ∈ ends dataBase.toNat a.data, e ≤ stop
  stack : roundUp stop + stackSize.toNat = image.memory.size
  size : image.memory.size < UInt32.size
  memory : placed.foldlM writeItem { size := image.memory.size } = .ok image.memory

theorem Image.exists_holds (hload : Image.load a = .ok image) : ∃ placed stop, image.Holds a placed stop := by
  obtain ⟨labels, placed, cursor, bottom, top, memory, start, -, hlayout, hbottom, htop, hmemory, -, rfl⟩ :=
    Image.load_eq_ok_iff.mp hload
  obtain ⟨hspaced, -, hends⟩ := layoutData_spaced hlayout
  obtain ⟨hcursor, rfl⟩ := align_eq_ok_iff.mp hbottom
  obtain ⟨hlt, rfl⟩ := addSize_eq_ok_iff.mp htop
  have hsize := size_foldlM_writeItem hmemory
  dsimp only at hsize
  refine ⟨placed, cursor.toNat, layoutData_items hlayout, ⟨labels, rfl⟩, hspaced, hends, ?_, ?_, ?_⟩
  · rw [hsize, toNat_top hcursor hlt]
  · exact Image.size_of_load hload
  · rw [hsize]
    exact hmemory

namespace Image.Holds

variable {stop : Nat}

theorem stop_le (h : image.Holds a placed stop) : stop + stackSize.toNat ≤ image.memory.size :=
  h.stack ▸ Nat.add_le_add_right (le_roundUp stop) _

theorem lengths (h : image.Holds a placed stop) : ∀ p ∈ placed, p.1.bytes.length < UInt32.size :=
  (exists_foldlM_writeItem_iff (m := { size := image.memory.size }) h.spaced
    (Nat.le_of_add_right_le h.stop_le) h.size).mp ⟨_, h.memory⟩

theorem fits (h : image.Holds a placed stop) : Fits a.data := fun e he => by
  have hround := roundUp_le_roundUp (h.ends e he)
  have hstack := h.stack
  have hsize := h.size
  omega

theorem laysOut (h : image.Holds a placed stop) : image.LaysOut a placed := by
  have hlength (p) (hp : p ∈ placed) := Datum.toNat_size (h.lengths p hp)
  have hmem (p) (hp : p ∈ placed) := h.spaced.mem hp
  refine ⟨h.items, fun line hline name hname => ?_, fun p hp => (hmem p hp).2.1,
    fun p hp => UInt32.le_iff_toNat_le.mpr (hmem p hp).1, ?_, fun p hp => ?_, ?_, ?_⟩
  · obtain ⟨labels, hcode⟩ := h.code
    rw [hcode] at hline
    obtain ⟨i, -, rfl⟩ := List.mem_map.mp (List.mem_toArray.mp hline)
    rw [instr_resolve] at hname
    rw [resolve, hname]
  · exact h.spaced.pairwise.imp_of_mem fun hp _ hle => hlength _ hp ▸ hle
  · rw [← hlength p hp]
    exact (Nat.add_le_add_right (hmem p hp).2.2 _).trans h.stop_le
  · rw [ofImage, read_write _ _ _ _ (by decide), if_pos rfl, UInt32.toUInt32_toInt32,
      UInt32.toNat_ofNat_of_lt' h.size]
  · exact (bytes_foldlM_writeItem h.spaced h.lengths (fun i _ => Memory.get_empty _ i) h.memory).1

end Image.Holds

/-- Where nothing is mapped nothing is written. -/
theorem Image.get_of_load (hload : Image.load a = .ok image) {i : Nat}
    (hi : i < dataBase.toNat ∨ image.memory.size ≤ i) : image.memory.get i = 0 := by
  obtain ⟨placed, stop, h⟩ := Image.exists_holds hload
  have hkept := (bytes_foldlM_writeItem h.spaced h.lengths (fun i _ => Memory.get_empty _ i) h.memory).2
  rw [hkept i (hi.imp_right (Nat.le_of_add_right_le h.stop_le).trans), Memory.get_empty]

theorem Image.load_of_overrun (hlabels : labelTable [] 0 a.text = .ok labels)
    (h : overrun? dataBase.toNat a.data = some e) :
    Image.load a = .error (if e < UInt32.size then .aborted .addressOverflow
      else .emulation 0 .dataTooLarge) := by
  rw [load, Outcome.bind_ok hlabels]
  rcases Outcome.bind_eq_error.mp (layoutData_of_overrun (by decide) h) with hlayout | ⟨r, hlayout, halign⟩
  · rw [hlayout]
    rfl
  · rw [Outcome.bind_ok hlayout]
    exact Outcome.bind_eq_error.mpr (.inl halign)

/-- Of items that do not overrun only the stack behind them may be out of room. -/
theorem Image.load_of_not_fits (hlabels : labelTable [] 0 a.text = .ok labels)
    (h : overrun? dataBase.toNat a.data = none) (hfits : ¬ Fits a.data) :
    Image.load a = .error (.emulation 0 .dataTooLarge) := by
  obtain ⟨placed, cursor, hlayout, hcursor⟩ := exists_layoutData (by decide) (overrun?_eq_none_iff.mp h)
  obtain ⟨-, -, hends⟩ := layoutData_spaced hlayout
  have hfail : addSize (aligned cursor) stackSize = .error (.emulation 0 .dataTooLarge) := by
    refine if_neg fun hlt => hfits fun e he => ?_
    rw [toNat_aligned_of_lt hcursor] at hlt
    exact (Nat.add_le_add_right (roundUp_le_roundUp (hends e he)) _).trans_lt hlt
  rw [load, Outcome.bind_ok hlabels, Outcome.bind_ok hlayout]
  simp only [Outcome.bind_ok (align_eq_ok_iff.mpr ⟨hcursor, rfl⟩), hfail]
  rfl

theorem Fits.exists_layout {data : List Datum} (h : Fits data) :
    ∃ placed cursor bottom top, layoutData dataBase data = .ok (placed, cursor) ∧ align cursor = .ok bottom ∧
      addSize bottom stackSize = .ok top ∧ Spaced dataBase.toNat cursor.toNat placed ∧
        cursor.toNat ≤ top.toNat := by
  obtain ⟨placed, cursor, hlayout, hcursor⟩ :=
    exists_layoutData (by decide) (overrun?_eq_none_iff.mp h.overrun?)
  obtain ⟨hspaced, hmem, -⟩ := layoutData_spaced hlayout
  have hlt : (aligned cursor).toNat + stackSize.toNat < UInt32.size := by
    rw [toNat_aligned_of_lt hcursor]
    obtain heq | hmem := List.mem_cons.mp hmem
    · rw [heq]
      decide
    · exact h _ hmem
  refine ⟨placed, cursor, _, _, hlayout, align_eq_ok_iff.mpr ⟨hcursor, rfl⟩, addSize_eq_ok_iff.mpr ⟨hlt, rfl⟩,
    hspaced, ?_⟩
  rw [toNat_top hcursor hlt]
  exact Nat.le_add_right_of_le (le_roundUp _)

theorem Image.load_of_fits (hlabels : labelTable [] 0 a.text = .ok labels) (hfits : Fits a.data)
    (hlengths : ∀ item ∈ a.data, item.bytes.length < UInt32.size) :
    (∃ image, Image.load a = .ok image) ∨
      Library.start ∉ labelsOf a.text ∧ Image.load a = .error (.emulation 0 .noStart) := by
  obtain ⟨placed, cursor, bottom, top, hlayout, hbottom, htop, hspaced, hle⟩ := hfits.exists_layout
  rw [← layoutData_items hlayout, List.forall_mem_map] at hlengths
  obtain ⟨memory, hmemory⟩ :=
    (exists_foldlM_writeItem_iff (m := { size := top.toNat }) hspaced hle top.toNat_lt).mpr hlengths
  cases hstart : labels.lookup Library.start with
  | some start =>
    exact .inl ⟨_, Image.load_eq_ok_iff.mpr
      ⟨labels, placed, cursor, bottom, top, memory, start, hlabels, hlayout, hbottom, htop, hmemory,
        hstart, rfl⟩⟩
  | none =>
    refine .inr ⟨fun hmem => ?_, ?_⟩
    · have hsome := isSome_lookup_labelTable hlabels hmem
      rw [hstart] at hsome
      cases hsome
    · rw [load, Outcome.bind_ok hlabels, Outcome.bind_ok hlayout]
      simp only [Outcome.bind_ok hbottom, Outcome.bind_ok htop, Outcome.bind_ok hmemory, hstart]

theorem Image.load_of_long (hlabels : labelTable [] 0 a.text = .ok labels) (hfits : Fits a.data)
    (hlong : ∃ item ∈ a.data, UInt32.size ≤ item.bytes.length) :
    ∃ cause, Image.load a = .error (.aborted cause) := by
  obtain ⟨placed, cursor, bottom, top, hlayout, hbottom, htop, hspaced, hle⟩ := hfits.exists_layout
  rw [← layoutData_items hlayout] at hlong
  obtain ⟨item, hitem, hlong⟩ := hlong
  obtain ⟨p, hp, rfl⟩ := List.mem_map.mp hitem
  cases hmemory : placed.foldlM writeItem { size := top.toNat } with
  | ok memory =>
    have hlengths := (exists_foldlM_writeItem_iff (m := { size := top.toNat }) hspaced hle top.toNat_lt).mp
      ⟨memory, hmemory⟩
    exact absurd (hlengths p hp) (Nat.not_lt.mpr hlong)
  | error e =>
    obtain ⟨cause, rfl⟩ := foldlM_writeItem_eq_error hmemory
    refine ⟨cause, ?_⟩
    rw [load, Outcome.bind_ok hlabels, Outcome.bind_ok hlayout]
    simp only [Outcome.bind_ok hbottom, Outcome.bind_ok htop, hmemory]
    rfl

theorem Image.exists_load_iff : (∃ image, Image.load a = .ok image) ↔ (labelsOf a.text).Nodup ∧
    Library.start ∈ labelsOf a.text ∧ Fits a.data ∧ ∀ item ∈ a.data, item.bytes.length < UInt32.size := by
  constructor
  · rintro ⟨image, hload⟩
    obtain ⟨placed, stop, h⟩ := Image.exists_holds hload
    obtain ⟨labels, -, -, -, -, -, start, hlabels, -, -, -, -, hstart, -⟩ := Image.load_eq_ok_iff.mp hload
    refine ⟨(exists_labelTable_iff.mp ⟨labels, hlabels⟩).1, ?_, h.fits, ?_⟩
    · by_contra hmem
      rw [(lookup_labelTable hlabels Library.start).1 hmem] at hstart
      cases hstart
    · rw [← h.items, List.forall_mem_map]
      exact h.lengths
  · rintro ⟨hnodup, hstart, hfits, hlengths⟩
    obtain ⟨labels, hlabels⟩ := exists_labelTable_iff.mpr ⟨hnodup, fun _ _ => List.lookup_nil⟩
    exact (Image.load_of_fits hlabels hfits hlengths).resolve_right fun h => h.1 hstart

theorem Image.load_aborts_iff : (∃ cause, Image.load a = .error (.aborted cause)) ↔ (labelsOf a.text).Nodup ∧
    ((∃ e, overrun? dataBase.toNat a.data = some e ∧ e < UInt32.size) ∨
      Fits a.data ∧ ∃ item ∈ a.data, UInt32.size ≤ item.bytes.length) := by
  cases hlabels : labelTable [] 0 a.text with
  | error e =>
    obtain ⟨pc, name, rfl⟩ := labelTable_eq_error hlabels
    have hnodup : ¬ (labelsOf a.text).Nodup := fun hnodup => by
      obtain ⟨labels, hok⟩ := exists_labelTable_iff.mpr ⟨hnodup, fun _ _ => List.lookup_nil⟩
      cases hok.symm.trans hlabels
    have hload : Image.load a = .error (.emulation pc (.duplicateLabel name)) := by
      rw [load, hlabels]
      rfl
    simp [hload, hnodup]
  | ok labels =>
    have hnodup := (exists_labelTable_iff.mp ⟨labels, hlabels⟩).1
    cases hover : overrun? dataBase.toNat a.data with
    | some e =>
      have hfits : ¬ Fits a.data := fun h => by cases h.overrun?.symm.trans hover
      rw [Image.load_of_overrun hlabels hover]
      by_cases he : e < UInt32.size <;> simp [hnodup, hfits, he]
    | none =>
      by_cases hfits : Fits a.data
      · by_cases hlong : ∃ item ∈ a.data, UInt32.size ≤ item.bytes.length
        · exact iff_of_true (Image.load_of_long hlabels hfits hlong) ⟨hnodup, .inr ⟨hfits, hlong⟩⟩
        · have hlengths := Image.load_of_fits hlabels hfits fun item hitem => Nat.not_le.mp fun hle =>
            hlong ⟨item, hitem, hle⟩
          obtain ⟨image, hload⟩ | ⟨-, hload⟩ := hlengths <;> simp [hload, hlong]
      · simp [Image.load_of_not_fits hlabels hover hfits, hfits]

/-- Of every program that is loaded the items stand in order at multiples of four behind the addresses that
are not mapped, they do not overlap, the stack is behind them, and memory has their bytes. Exactly those
programs are loaded whose labels are distinct, with a start, and whose data and stack fit into the address
space. The others are refused with an error, except that the process itself is ended where the first item that
overruns ends in the last three bytes of the address space, or where a text is so long that its size is taken
for another one. -/
theorem Image.load_lays_out (a : Assembly) :
    (∀ image, Image.load a = .ok image → ∃ placed, image.LaysOut a placed) ∧
    ((∃ image, Image.load a = .ok image) ↔ (labelsOf a.text).Nodup ∧ Library.start ∈ labelsOf a.text ∧
      Fits a.data ∧ ∀ item ∈ a.data, item.bytes.length < UInt32.size) ∧
    ((∃ cause, Image.load a = .error (.aborted cause)) ↔ (labelsOf a.text).Nodup ∧
      ((∃ e, overrun? dataBase.toNat a.data = some e ∧ e < UInt32.size) ∨
        Fits a.data ∧ ∃ item ∈ a.data, UInt32.size ≤ item.bytes.length)) := by
  refine ⟨fun image hload => ?_, Image.exists_load_iff, Image.load_aborts_iff⟩
  obtain ⟨placed, stop, h⟩ := Image.exists_holds hload
  exact ⟨placed, h.laysOut⟩

/-- A program whose heap ends one byte before the end of the address space. -/
def widestHeap : Assembly :=
  { Assembly.ofHeap 4294963199 with
      text := [.label Library.start, .li .a0 0, .li .a7 Asm.SystemCall.exit, .ecall] }

/-- There is no address for the cell behind the heap, and no error says so. -/
theorem widestHeap_aborts : overrun? dataBase.toNat widestHeap.data = some 4294967295 ∧
    Image.load widestHeap = .error (.aborted .addressOverflow) ∧
    widestHeap.run #[] 4 = .error (.aborted .addressOverflow) := by
  have hover : overrun? dataBase.toNat widestHeap.data = some 4294967295 := by decide +kernel
  have hlabels : labelTable [] 0 widestHeap.text = .ok [(Library.start, 0)] := by decide +kernel
  have hload : Image.load widestHeap = .error (.aborted .addressOverflow) :=
    Image.load_of_overrun hlabels hover
  refine ⟨hover, hload, ?_⟩
  rw [Assembly.run, hload]
  rfl

end Loading

end Machine

end Choco
