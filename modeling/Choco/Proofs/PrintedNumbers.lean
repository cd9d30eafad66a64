import Choco.Proofs.Routines

namespace Choco

variable {d : Nat}

def digits (n : Nat) : List Nat :=
  if n < 10 then [n] else digits (n / 10) ++ [n % 10]

def digitByte (d : Nat) : UInt8 := UInt8.ofNat (48 + d)

def minusByte : UInt8 := 45

def signText (n : Int) : List UInt8 := if n < 0 then [minusByte] else []

def decimal (n : Int) : List UInt8 := signText n ++ (digits n.natAbs).map digitByte

/-- The digits spell the number, with no zero in front. -/
structure Spelled (n : Nat) (ds : List Nat) : Prop where
  lt : ∀ d ∈ ds, d < 10
  value : ds.foldl (fun value d => 10 * value + d) 0 = n
  nonempty : ds ≠ []
  head : ds.head? = some 0 → ds = [0]

section Digits

variable {n : Nat}

theorem digits_of_lt (h : n < 10) : digits n = [n] := by rw [digits, if_pos h]

theorem digits_of_le (h : 10 ≤ n) : digits n = digits (n / 10) ++ [n % 10] := by
  rw [digits, if_neg (Nat.not_lt.mpr h)]

theorem digits_spelled (n : Nat) : Spelled n (digits n) := by
  induction n using Nat.strongRecOn with
  | ind n ih =>
    rcases Nat.lt_or_ge n 10 with hlt | hle
    · rw [digits_of_lt hlt]
      exact ⟨by simpa using hlt, by simp, by simp, by simp⟩
    · obtain ⟨hlt, hvalue, hnonempty, hhead⟩ := ih (n / 10) (by omega)
      rw [digits_of_le hle]
      refine ⟨?_, ?_, by simp, fun h => ?_⟩
      · intro d hd
        rcases List.mem_append.mp hd with hd | hd
        · exact hlt d hd
        · rw [List.mem_singleton.mp hd]
          omega
      · rw [List.foldl_append, hvalue, List.foldl_cons, List.foldl_nil]
        omega
      · -- a zero in front would be all that the other digits spell
        rw [List.head?_append_of_ne_nil _ hnonempty] at h
        rw [hhead h] at hvalue
        simp only [List.foldl_cons, List.foldl_nil] at hvalue
        omega

theorem length_digits_le {k : Nat} (h : n < 10 ^ (k + 1)) : (digits n).length ≤ k + 1 := by
  induction k generalizing n with
  | zero => rw [digits_of_lt h, List.length_singleton]
  | succ k ih =>
    rcases Nat.lt_or_ge n 10 with hlt | hle
    · rw [digits_of_lt hlt, List.length_singleton]
      omega
    · have hrest := ih (n := n / 10) (Nat.div_lt_of_lt_mul (by rwa [Nat.pow_succ'] at h))
      rw [digits_of_le hle, List.length_append, List.length_singleton]
      omega

theorem toDigits_eq_digits (n : Nat) : Nat.toDigits 10 n = (digits n).map Nat.digitChar := by
  induction n using Nat.strongRecOn with
  | ind n ih =>
    rcases Nat.lt_or_ge n 10 with hlt | hle
    · rw [digits_of_lt hlt, Nat.toDigits_of_lt_base hlt]
      rfl
    · rw [digits_of_le hle, List.map_append, ← ih (n / 10) (by omega), Nat.toDigits_eq_if (by decide),
        if_neg (Nat.not_lt.mpr hle)]
      rfl

theorem utf8EncodeChar_digitChar (h : d < 10) : String.utf8EncodeChar d.digitChar = [digitByte d] := by
  decide +revert

theorem data_utf8Encode_digitChar {ds : List Nat} (h : ∀ d ∈ ds, d < 10) :
    (ds.map Nat.digitChar).utf8Encode.data.toList = ds.map digitByte := by
  induction ds with
  | nil => rfl
  | cons d ds ih =>
    rw [List.forall_mem_cons] at h
    rw [List.map_cons, List.utf8Encode_cons, List.map_cons, ByteArray.data_append,
      Array.toList_append, ih h.2, List.utf8Encode_singleton, utf8EncodeChar_digitChar h.1]
    simp

theorem length_decimal (n : Int) : (decimal n).length = (signText n).length + (digits n.natAbs).length := by
  rw [decimal, List.length_append, List.length_map]

theorem length_decimal_le (w : Int32) : (decimal w.toInt).length ≤ 11 := by
  have hlow := w.le_toInt
  have hhigh := w.toInt_lt
  have hdigits : (digits w.toInt.natAbs).length ≤ 10 := length_digits_le (by omega)
  have hsign : (signText w.toInt).length ≤ 1 := by
    unfold signText
    split <;> simp
  rw [length_decimal]
  omega

theorem encodeUtf8_toString (n : Int) : (Text.encodeUtf8 (toString n)).toList = decimal n := by
  have hnat (m : Nat) : (Text.encodeUtf8 (toString m)).toList = (digits m).map digitByte := by
    rw [Text.encodeUtf8, Nat.toString_eq_ofList_toDigits, toDigits_eq_digits]
    exact (congrArg _ (congrArg _ String.toByteArray_ofList)).trans
      (data_utf8Encode_digitChar (digits_spelled m).lt)
  cases n with
  | ofNat m =>
    have hsign : ¬ Int.ofNat m < 0 := Int.not_lt.mpr (Int.natCast_nonneg m)
    rw [decimal, signText, if_neg hsign]
    exact hnat m
  | negSucc m =>
    have htext : Text.encodeUtf8 (toString (Int.negSucc m)) = Text.encodeUtf8 "-" ++ Text.encodeUtf8
        (toString (m + 1)) :=
      (congrArg ByteArray.data String.toByteArray_append).trans ByteArray.data_append
    rw [htext, Array.toList_append, hnat, decimal, signText, if_pos (Int.negSucc_lt_zero m)]
    rfl

end Digits

namespace Machine

open Asm (Assembly Instr Reg)
open Asm.Instr

section Words

theorem toNat_add (a b : Int32) :
    (a + b).toUInt32.toNat = (a.toUInt32.toNat + b.toUInt32.toNat) % 4294967296 := by
  rw [Int32.toUInt32_add, UInt32.toNat_add]

variable {w : Int32} {n : Nat}

theorem toNat_pred (h : w.toUInt32.toNat = n + 1) : (w + (-1)).toUInt32.toNat = n := by
  have hlt := w.toUInt32.toNat_lt
  have hone : (-1 : Int32).toUInt32.toNat = 4294967295 := rfl
  rw [toNat_add, hone]
  omega

theorem toInt_of_toNat (h : w.toUInt32.toNat = n) (hn : n < 2147483648) : w.toInt = n := by
  have hw : w.toBitVec.toNat = n := h
  rw [Int32.toInt, BitVec.toInt_eq_toNat_of_lt (by omega), hw]

theorem toInt_rem_ten (h : w.toInt = -n) : (Word.rem w 10).toInt = -(n % 10 : Nat) := by
  rw [Word.rem, if_neg (by decide), Int32.toInt_mod, h, Int.neg_tmod, Int.ofNat_tmod]
  rfl

theorem toInt_div_ten (h : w.toInt = -n) : (Word.div w 10).toInt = -(n / 10 : Nat) := by
  have hlow := w.le_toInt
  have hquotient : (w.toInt).tdiv (10 : Int32).toInt = -(n / 10 : Nat) := by
    rw [h, Int.neg_tdiv, Int.ofNat_tdiv]
    rfl
  rw [Word.div, if_neg (by decide), Int32.toInt_div, hquotient]
  exact Int.bmod_eq_of_le (by omega) (by omega)

theorem ne_holds_zero (h : w.toInt = -n) : Cond.ne.holds w 0 = (n != 0) := by
  rw [Cond.holds, Bool.eq_iff_iff, bne_iff_ne, bne_iff_ne, ne_eq, ← Int32.toInt_inj, h, Int32.toInt_zero]
  omega

theorem digitByte_of_neg (hd : d < 10) (h : w.toInt = -d) : (48 - w).toUInt32.toUInt8 = digitByte d := by
  have hw : w = Int32.ofInt (-d) := by rw [← h, Int32.ofInt_toInt]
  subst hw
  clear h
  decide +revert

end Words

section Routine

open Asm.Routine

variable {labels : List (String × Nat)} {symbols : List (String × UInt32)} {code : Array Line}
  {stdin : Array UInt8} {pc p n : Nat} {v : View} {w : Int32}

theorem View.mapped_byte {a : Int32} (ha : a.toUInt32.toNat = p) (hlow : dataBase.toNat ≤ p)
    (hhigh : p < v.memory.size) :
    v.Mapped a 1 := ⟨UInt32.le_iff_toNat_le.mpr (ha ▸ hlow), ha ▸ hhigh⟩

theorem push_passage (hp : (v.regs .t1).toUInt32.toNat = p + 1) (hlow : dataBase.toNat ≤ p)
    (hhigh : p < v.memory.size) :
    Passage labels symbols stdin [addi .t1 .t1 (-1), sb .t5 0 .t1] v
      { v.put .t1 (v.regs .t1 + (-1)) with memory := v.memory.set p (v.regs .t5).toUInt32.toUInt8 } := by
  have haddress : (v.regs .t1 + (-1) + 0).toUInt32.toNat = p := by rw [Int32.add_zero, toNat_pred hp]
  refine .addi (.sb (View.mapped_byte haddress hlow hhigh) ?_)
  rw [← haddress]
  exact .nil

/-- The lines that write the last digit of the number in `t2`, which is not positive, and divide it by ten. -/
def digitLines : List Instr :=
  [label ".Lprint_int_digit",
    li .t4 10,
    (alu .rem .t5 .t2 .t4).note "in -9..=0",
    alu .div .t2 .t2 .t4,
    li .t6 48,
    alu .sub .t5 .t6 .t5,
    addi .t1 .t1 (-1),
    sb .t5 0 .t1]

def digitRegs : List Reg := [.t1, .t2, .t4, .t5, .t6]

theorem digitLines_passage (hn : (v.regs .t2).toInt = -n) (hp : (v.regs .t1).toUInt32.toNat = p + 1)
    (hlow : dataBase.toNat ≤ p) (hhigh : p < v.memory.size) :
    ∃ v', Passage labels symbols stdin digitLines v v' ∧ v.Keeps digitRegs v' ∧
      (v'.regs .t2).toInt = -(n / 10 : Nat) ∧ (v'.regs .t1).toUInt32.toNat = p ∧
      v'.memory = v.memory.set p (digitByte (n % 10)) := by
  refine ⟨_, .label <| .li <| .note <| .alu <| .alu <| .li <| .alu <| push_passage hp hlow hhigh,
    ⟨fun r hr => ?_, rfl, rfl⟩, toInt_div_ten hn, toNat_pred hp, ?_⟩
  · simp only [digitRegs, List.mem_cons, List.not_mem_nil, or_false, not_or] at hr
    simp [hr]
  · rw [← digitByte_of_neg (Nat.mod_lt n (by decide)) (toInt_rem_ten hn)]
    rfl

variable (stdin) in
theorem digits_lead
    (hcode : Placed labels symbols code pc (digitLines ++ [branch .ne .t2 .zero ".Lprint_int_digit"]))
    (hn : (v.regs .t2).toInt = -n) (hp : (v.regs .t1).toUInt32.toNat = p + (digits n).length)
    (hlow : dataBase.toNat ≤ p)
    (hhigh : p + (digits n).length ≤ v.memory.size) (hzero : v.regs .zero = 0) :
    ∃ v', Leads code stdin pc v (pc + 9) v' ∧ v.Keeps digitRegs v' ∧ (v'.regs .t1).toUInt32.toNat = p ∧
      v.memory.Written p ((digits n).map digitByte) v'.memory := by
  have hloop : labels.lookup ".Lprint_int_digit" = some pc := hcode.lookup 0 _ _ rfl rfl
  obtain ⟨hlines, hbranch⟩ := codeAt_append.mp hcode.code
  -- one round writes the last digit and leaves `n / 10`, whose digits come in front of it
  induction n using Nat.strongRecOn generalizing v with
  | ind n ih =>
    rcases Nat.lt_or_ge n 10 with hlt | hle
    · rw [digits_of_lt hlt] at hp hhigh ⊢
      obtain ⟨v', hpassage, hkeeps, ht2, ht1, hmemory⟩ := digitLines_passage hn hp hlow hhigh
      have hdone : Cond.ne.holds (v'.regs .t2) (v'.regs .zero) = false := by
        rw [hkeeps.regs .zero (by decide), hzero, ne_holds_zero ht2, Nat.div_eq_of_lt hlt]
        rfl
      refine ⟨v', (hpassage.leads hlines).trans (.passed hbranch hdone), hkeeps, ht1, ?_⟩
      rw [hmemory, Nat.mod_eq_of_lt hlt]
      exact .cons (.refl _ _)
    · rw [digits_of_le hle, List.length_append, List.length_singleton, ← Nat.add_assoc] at hp hhigh
      obtain ⟨v₁, hpassage, hkeeps, ht2, ht1, hmemory⟩ := digitLines_passage hn hp (by omega) (by omega)
      have hagain : Cond.ne.holds (v₁.regs .t2) (v₁.regs .zero) = true := by
        rw [hkeeps.regs .zero (by decide), hzero, ne_holds_zero ht2, bne_iff_ne]
        omega
      obtain ⟨v', hleads, hkeeps', ht1', hwritten⟩ :=
        ih (n / 10) (by omega) ht2 ht1 (by rw [hmemory]; exact Nat.le_of_succ_le hhigh)
        ((hkeeps.regs .zero (by decide)).trans hzero)
      refine ⟨v', ((hpassage.leads hlines).trans (.taken hbranch hagain hloop)).trans hleads,
        (hkeeps.trans hkeeps').mono (by simp), ht1', ?_⟩
      rw [digits_of_le hle, List.map_append]
      refine .concat ?_
      rw [List.length_map, ← hmemory]
      exact hwritten

def openingLines : List Instr :=
  [label Library.printInt,
    (addi .sp .sp (-16)).note "text buffer",
    li .t0 newline,
    sb .t0 15 .sp,
    (addi .t1 .sp 15).note "start of text",
    mv .t2 .a0,
    (alu .slt .t3 .t2 .zero).note "sign flag"]

variable (stdin) in
theorem opening_lead (hcode : CodeAt labels symbols code pc openingLines)
    (hp : (v.regs .sp - 16).toUInt32.toNat = p) (hlow : dataBase.toNat ≤ p) (hhigh : p + 16 ≤ v.memory.size)
    (hsize : v.memory.size ≤ UInt32.size) (hzero : v.regs .zero = 0) :
    ∃ v', Leads code stdin pc v (pc + 7) v' ∧ v.Keeps [.sp, .t0, .t1, .t2, .t3] v' ∧
      v'.regs .sp = v.regs .sp - 16 ∧ (v'.regs .t1).toUInt32.toNat = p + 15 ∧ v'.regs .t2 = v.regs .a0 ∧
      v'.regs .t3 = Word.ofBool (v.regs .a0 < 0) ∧ v'.memory = v.memory.set (p + 15) Input.newline := by
  have hsp : v.regs .sp + (-16) = v.regs .sp - 16 := (Int32.sub_eq_add_neg ..).symm
  have hend : (v.regs .sp + (-16) + 15).toUInt32.toNat = p + 15 := by
    have hoffset : (15 : Int32).toUInt32.toNat = 15 := rfl
    rw [toNat_add, hsp, hp, hoffset]
    exact Nat.mod_eq_of_lt (by unfold UInt32.size at hsize; omega)
  have hlines : Passage labels symbols stdin openingLines v _ :=
    .label <| .note <| .addi <| .li <| .sb (View.mapped_byte hend (by omega) (Nat.lt_of_succ_le hhigh)) <|
      .note <| .addi <| .mv <| .note <| .alu .nil
  refine ⟨_, hlines.leads hcode, ⟨fun r hr => ?_, rfl, rfl⟩, hsp, hend, rfl, ?_, ?_⟩
  · simp only [List.mem_cons, List.not_mem_nil, or_false, not_or] at hr
    simp [hr]
  · change Word.ofBool (v.regs .a0 < v.regs .zero) = _
    rw [hzero]
  · change v.memory.set (v.regs .sp + (-16) + 15).toUInt32.toNat _ = _
    rw [hend]
    rfl

variable (stdin) in
theorem magnitude_lead
    (hcode : CodeAt labels symbols code pc [branch .ne .t3 .zero ".Lprint_int_digit", alu .sub .t2 .zero .t2])
    (hlabel : labels.lookup ".Lprint_int_digit" = some (pc + 2))
    (hsign : v.regs .t3 = Word.ofBool (v.regs .t2 < 0))
    (hzero : v.regs .zero = 0) :
    ∃ v', Leads code stdin pc v (pc + 2) v' ∧ v.Keeps [.t2] v' ∧ v'.memory = v.memory ∧
      (v'.regs .t2).toInt = -((v.regs .t2).toInt.natAbs : Int) := by
  by_cases hneg : v.regs .t2 < 0
  · refine ⟨v, .taken hcode ?_ hlabel, ⟨fun _ _ => rfl, rfl, rfl⟩, rfl, ?_⟩
    · rw [hsign, hzero, decide_eq_true hneg]
      rfl
    · rw [Int32.lt_iff_toInt_lt, Int32.toInt_zero] at hneg
      omega
  · have hpassed : Leads code stdin pc v (pc + 1) v := by
      refine .passed hcode ?_
      rw [hsign, hzero, decide_eq_false hneg]
      rfl
    have hsub : Passage labels symbols stdin [alu .sub .t2 .zero .t2] v
        (v.put .t2 (v.regs .zero - v.regs .t2)) := .alu .nil
    refine ⟨_, hpassed.trans (hsub.leads (codeAt_cons.mp hcode).2), ⟨fun r hr => ?_, rfl, rfl⟩, rfl, ?_⟩
    · simp only [List.mem_cons, List.not_mem_nil, or_false] at hr
      simp [hr]
    · change (v.regs .zero - v.regs .t2).toInt = _
      have hlt := (v.regs .t2).toInt_lt
      rw [Int32.lt_iff_toInt_lt, Int32.toInt_zero] at hneg
      rw [hzero, Int32.toInt_sub, Int32.toInt_zero, Int.bmod_eq_of_le (by omega) (by omega)]
      omega

def signLines : List Instr := [li .t5 45, addi .t1 .t1 (-1), sb .t5 0 .t1]

variable (stdin) in
theorem sign_lead
    (hcode : CodeAt labels symbols code pc (branch .eq .t3 .zero ".Lprint_int_write" :: signLines))
    (hlabel : labels.lookup ".Lprint_int_write" = some (pc + 4)) (hsign : v.regs .t3 = Word.ofBool (w < 0))
    (hp : (v.regs .t1).toUInt32.toNat = p + (signText w.toInt).length) (hlow : dataBase.toNat ≤ p)
    (hhigh : p + (signText w.toInt).length ≤ v.memory.size) (hzero : v.regs .zero = 0) :
    ∃ v', Leads code stdin pc v (pc + 4) v' ∧ v.Keeps [.t1, .t5] v' ∧ (v'.regs .t1).toUInt32.toNat = p ∧
      ∀ (m : Memory) bs, m.Written (p + (signText w.toInt).length) bs v.memory →
        m.Written p (signText w.toInt ++ bs) v'.memory := by
  by_cases hneg : w < 0
  · have htext : signText w.toInt = [minusByte] := if_pos (Int32.lt_iff_toInt_lt.mp hneg)
    rw [htext] at hp hhigh ⊢
    have hpassed : Leads code stdin pc v (pc + 1) v := by
      refine .passed hcode ?_
      rw [hsign, hzero, decide_eq_true hneg]
      rfl
    have hlines : Passage labels symbols stdin signLines v _ := .li (push_passage hp hlow hhigh)
    refine ⟨_, hpassed.trans (hlines.leads (codeAt_cons.mp hcode).2), ⟨fun r hr => ?_, rfl, rfl⟩,
      toNat_pred hp, fun m bs h => h.cons⟩
    simp only [List.mem_cons, List.not_mem_nil, or_false, not_or] at hr
    simp [hr]
  · have htext : signText w.toInt = [] := if_neg fun h => hneg (Int32.lt_iff_toInt_lt.mpr h)
    rw [htext] at hp hhigh ⊢
    refine ⟨v, .taken hcode ?_ hlabel, ⟨fun _ _ => rfl, rfl, rfl⟩, hp, fun m bs h => h⟩
    rw [hsign, hzero, decide_eq_false hneg]
    rfl

def writeLines : List Instr :=
  [label ".Lprint_int_write",
    li .a0 Asm.stdoutDescriptor,
    mv .a1 .t1,
    addi .t2 .sp 16,
    alu .sub .a2 .t2 .t1,
    li .a7 Asm.SystemCall.write,
    ecall,
    addi .sp .sp 16]

variable (stdin) in
theorem write_lead {bs : List UInt8} (hcode : CodeAt labels symbols code pc writeLines)
    (hp : (v.regs .t1).toUInt32.toNat = p) (hend : (v.regs .sp).toUInt32.toNat + 16 = p + bs.length)
    (hlow : dataBase.toNat ≤ p) (hhigh : p + bs.length ≤ v.memory.size)
    (hbytes : v.memory.bytes p bs.length = bs) (hshort : bs.length ≤ 16) :
    ∃ v', Leads code stdin pc v (pc + 8) v' ∧ v'.regs .sp = v.regs .sp + 16 ∧
      (∀ r, r ∉ [Reg.sp, .t2, .a0, .a1, .a2, .a7] → v'.regs r = v.regs r) ∧ v'.memory = v.memory ∧
      v'.stdinPos = v.stdinPos ∧ v'.stdout = v.stdout ++ bs := by
  have hlength : (v.regs .sp + 16 - v.regs .t1).toInt = bs.length := by
    have hoffset : (16 : Int32).toUInt32.toNat = 16 := rfl
    have hlt := (v.regs .t1).toUInt32.toNat_lt
    refine toInt_of_toNat ?_ (by omega)
    rw [Int32.toUInt32_sub, UInt32.toNat_sub, toNat_add, hoffset, hp]
    omega
  have hmapped : v.Mapped (v.regs .t1) bs.length := ⟨UInt32.le_iff_toNat_le.mpr (hp ▸ hlow), hp ▸ hhigh⟩
  have hlines : Passage labels symbols stdin writeLines v _ :=
    .label <| .li <| .mv <| .addi <| .alu <| .li <| .write rfl rfl hlength hmapped <| .addi .nil
  refine ⟨_, hlines.leads hcode, rfl, fun r hr => ?_, rfl, rfl, ?_⟩
  · simp only [List.mem_cons, List.not_mem_nil, or_false, not_or] at hr
    simp [hr]
  · change v.stdout ++ v.memory.bytes (v.regs .t1).toUInt32.toNat bs.length = _
    rw [hp, hbytes]

theorem printInt_eq : printInt = openingLines ++
    ([branch .ne .t3 .zero ".Lprint_int_digit", alu .sub .t2 .zero .t2] ++
    ((digitLines ++ [branch .ne .t2 .zero ".Lprint_int_digit"]) ++
      ((branch .eq .t3 .zero ".Lprint_int_write" :: signLines) ++ (writeLines ++ [ret])))) := rfl

def textRegs : List Reg := [.sp, .t0, .t1, .t2, .t3] ++ [.t2] ++ digitRegs ++ [.t1, .t5]

variable (stdin) in
theorem text_lead {start : Nat} (hcode : Placed labels symbols code pc printInt) (hw : v.regs .a0 = w)
    (hp : (v.regs .sp - 16).toUInt32.toNat = p) (hlow : dataBase.toNat ≤ p) (hhigh : p + 16 ≤ v.memory.size)
    (hsize : v.memory.size ≤ UInt32.size) (hzero : v.regs .zero = 0)
    (hstart : start + (decimal w.toInt).length = p + 15) :
    ∃ v', Leads code stdin pc v (pc + 22) v' ∧ v.Keeps textRegs v' ∧ v'.regs .sp = v.regs .sp - 16 ∧
      (v'.regs .t1).toUInt32.toNat = start ∧
        v.memory.Written start (decimal w.toInt ++ [Input.newline]) v'.memory := by
  have hshort := length_decimal_le w
  rw [length_decimal] at hshort hstart
  rw [← Nat.add_assoc] at hstart
  rw [printInt_eq] at hcode
  obtain ⟨hopening, hcode⟩ := hcode.append
  obtain ⟨hmagnitude, hcode⟩ := hcode.append
  obtain ⟨hloop, hcode⟩ := hcode.append
  obtain ⟨hsign, hwrite⟩ := hcode.append
  obtain ⟨v₁, hleads₁, hkeeps₁, hsp, ht1₁, ht2₁, ht3, hmemory₁⟩ :=
    opening_lead stdin hopening.code hp hlow hhigh hsize hzero
  rw [hw] at ht2₁ ht3
  have hzero₁ := (hkeeps₁.regs .zero (by decide)).trans hzero
  obtain ⟨v₂, hleads₂, hkeeps₂, hmemory₂, ht2₂⟩ :=
    magnitude_lead stdin hmagnitude.code (hloop.lookup 0 _ _ rfl rfl) (by rw [ht3, ht2₁]) hzero₁
  -- what the opening left in the registers is still there where it is used
  rw [ht2₁] at ht2₂
  rw [← hkeeps₂.regs .t1 (by decide), ← hstart] at ht1₁
  rw [← hkeeps₂.regs .t3 (by decide)] at ht3
  rw [← hmemory₂] at hmemory₁
  have hkeeps := hkeeps₁.trans hkeeps₂
  have hsize₂ : v₂.memory.size = v.memory.size := by rw [hmemory₁, Memory.size_set]
  obtain ⟨v₃, hleads₃, hkeeps₃, ht1₃, hwritten₃⟩ := digits_lead stdin hloop ht2₂ ht1₁ (by omega) (by omega)
    ((hkeeps.regs .zero (by decide)).trans hzero)
  rw [← hkeeps₃.regs .t3 (by decide)] at ht3
  replace hkeeps := hkeeps.trans hkeeps₃
  obtain ⟨v₄, hleads₄, hkeeps₄, ht1₄, hwritten₄⟩ :=
    sign_lead stdin hsign.code (hwrite.lookup 0 _ _ rfl rfl) ht3 ht1₃ (by omega)
    (by rw [hwritten₃.size]; omega) ((hkeeps.regs .zero (by decide)).trans hzero)
  refine ⟨v₄, hleads₁.trans <| hleads₂.trans <| hleads₃.trans hleads₄, hkeeps.trans hkeeps₄, ?_, ht1₄, ?_⟩
  · rw [hkeeps₄.regs .sp (by decide), hkeeps₃.regs .sp (by decide), hkeeps₂.regs .sp (by decide), hsp]
  · rw [decimal, List.append_assoc]
    refine hwritten₄ _ _ (.concat ?_)
    rw [List.length_map, hstart, ← hmemory₁]
    exact hwritten₃

variable (stdin) in
theorem printInt_leads (hcode : Placed labels symbols code pc printInt) (hw : v.regs .a0 = w)
    (hp : (v.regs .sp - 16).toUInt32.toNat = p) (hlow : dataBase.toNat ≤ p) (hhigh : p + 16 ≤ v.memory.size)
    (hsize : v.memory.size ≤ UInt32.size) (hzero : v.regs .zero = 0) (hra : 0 ≤ v.regs .ra) :
    ∃ v', Leads code stdin pc v (v.regs .ra).toInt.toNat v' ∧
      (∀ r : Reg, r.isScratch = false → v'.regs r = v.regs r) ∧
      v'.stdout = v.stdout ++ (decimal w.toInt ++ [Input.newline]) ∧ v'.stdinPos = v.stdinPos ∧
      v'.memory.size = v.memory.size ∧ ∀ i, i < p ∨ p + 16 ≤ i → v'.memory.get i = v.memory.get i := by
  have hshort := length_decimal_le w
  obtain ⟨start, hstart⟩ : ∃ start, start + (decimal w.toInt).length = p + 15 :=
    ⟨p + 15 - (decimal w.toInt).length, by omega⟩
  have hlength : start + (decimal w.toInt ++ [Input.newline]).length = p + 16 := by
    rw [List.length_append, List.length_singleton]
    omega
  obtain ⟨v₁, hleads₁, hkeeps, hsp₁, ht1, htext⟩ := text_lead stdin hcode hw hp hlow hhigh hsize hzero hstart
  rw [printInt_eq] at hcode
  obtain ⟨hwrite, hret⟩ := hcode.append.2.append.2.append.2.append.2.append
  obtain ⟨v₂, hleads₂, hsp₂, hregs₂, hmemory, hpos, hout⟩ :=
    write_lead stdin hwrite.code ht1 (by rw [hsp₁, hp, hlength]) (by omega)
    (by rw [htext.size, hlength]; exact hhigh) htext.bytes (by omega)
  have hregs (r : Reg) (hr : r.isScratch = false) : v₂.regs r = v.regs r := by
    by_cases hsp : r = .sp
    · rw [hsp, hsp₂, hsp₁, Int32.sub_add_cancel]
    · -- all other registers that are written are scratch registers
      refine (hregs₂ r fun hmem => ?_).trans (hkeeps.regs r fun hmem => ?_)
      all_goals
        revert hr hsp
        decide +revert
  refine ⟨v₂, ?_, hregs, ?_, ?_, ?_, fun i hi => ?_⟩
  · rw [← hregs .ra rfl] at hra ⊢
    exact hleads₁.trans <| hleads₂.trans <| .ret hret.code hra
  · rw [hout, hkeeps.stdout]
  · rw [hpos, hkeeps.stdinPos]
  · rw [hmemory, htext.size]
  · rw [hmemory, htext.get i (by omega)]

theorem printInt_mem_library : printInt <:+: Asm.Routine.all :=
  ⟨malloc, printBool ++ printStr ++ input ++ concat ++ strEq ++ Trap.all.flatMap ofTrap ++
    errorExit, by simp [Asm.Routine.all]⟩

end Routine

/-- The routine that prints a number, in any program with the library: it returns, and has then printed the
sign of the number, its digits without zeros in front, and a newline. Of memory it changes sixteen bytes below
the stack pointer. -/
theorem printInt_prints_decimal {a : Assembly} {image : Image} (hload : Image.load a = .ok image)
    (hlibrary : Asm.Routine.all <:+: a.text) (stdin : Array UInt8) {s : Machine} (hs : image.Hosts s)
    (hat : s.atLabel image.code Library.printInt) (hra : 0 ≤ s.read .ra)
    (hstack : s.Mapped (s.read .sp - 16) 16) :
    ∃ t ds, Returned image.code stdin s t ∧ Spelled (s.read .a0).toInt.natAbs ds ∧
      t.stdout = s.stdout ++ (signText (s.read .a0).toInt ++ ds.map digitByte ++ [Input.newline]) ∧
      signText (s.read .a0).toInt ++ ds.map digitByte =
        (Text.encodeUtf8 (toString (s.read .a0).toInt)).toList ∧
      t.stdinPos = s.stdinPos ∧ t.memory.size = s.memory.size ∧
      ∀ i, i < (s.read .sp - 16).toUInt32.toNat ∨ (s.read .sp - 16).toUInt32.toNat + 16 ≤ i →
        t.memory.get i = s.memory.get i := by
  obtain ⟨labels, items, -, -, -, hplaced⟩ := Image.load_placed hload
  obtain ⟨pc, hcode, hpc⟩ := hplaced _ _ (printInt_mem_library.trans hlibrary) rfl
  have hsize : s.memory.size ≤ UInt32.size := by
    rw [hs.size]
    exact (Image.size_of_load hload).le
  obtain ⟨v, hleads, hregs, hout, hpos, hmemory, hframe⟩ := printInt_leads stdin (v := s.view) hcode rfl rfl
    (UInt32.le_iff_toNat_le.mp hstack.1) hstack.2 hsize hs.zero hra
  obtain ⟨t, hreaches, hreturn, rfl⟩ := hleads s (hpc s hat) rfl
  exact ⟨t, _, ⟨hreaches, hreturn, hregs⟩, digits_spelled _, hout, (encodeUtf8_toString _).symm, hpos,
    hmemory, hframe⟩

/-- A program that prints the least number. -/
def leastNumber : Assembly :=
  { Assembly.ofHeap 4 with
      text := [label Library.start, li .a0 Int32.minValue, jal Library.printInt] }.withLibrary

theorem printed_leastNumber : ∃ image s t, Image.load leastNumber = .ok image ∧
    (ofImage image).after image.code #[] 3 = some s ∧
    s.atLabel image.code Library.printInt ∧ Returned image.code #[] s t ∧ t.pc = 3 ∧
    t.stdout = (Text.encodeUtf8 "-2147483648\n") := by
  have hcheck : ((Image.load leastNumber).toOption.bind fun image =>
      ((ofImage image).after image.code #[] 3).map fun s =>
      decide (s.atLabel image.code Library.printInt ∧ s.read .ra = 3 ∧ s.read .a0 = Int32.minValue ∧
        s.stdout = #[] ∧ dataBase ≤ (s.read .sp - 16).toUInt32 ∧
        (s.read .sp - 16).toUInt32.toNat + 16 ≤ s.memory.size)) = some true := by decide +kernel
  simp only [Option.bind_eq_some_iff, Option.map_eq_some_iff, decide_eq_true_eq] at hcheck
  obtain ⟨image, hload, s, hafter, hat, hra, ha0, hout, hlow, hhigh⟩ := hcheck
  have hload := Outcome.eq_ok_of_toOption hload
  have hhosts := (Image.hosts_ofImage image).reaches (reaches_of_after hafter)
  obtain ⟨t, ds, hreturned, -, hstdout, htext, -⟩ :=
    printInt_prints_decimal hload ⟨_, [], List.append_nil _⟩ #[] hhosts hat
    (by rw [hra]; decide) ⟨hlow, hhigh⟩
  refine ⟨image, s, t, hload, hafter, hat, hreturned, hreturned.pc.trans (by rw [hra]; rfl), ?_⟩
  rw [hstdout, htext, hout, ha0]
  decide +kernel

end Machine

end Choco
