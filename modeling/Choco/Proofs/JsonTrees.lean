import Choco.Compile
import Choco.Proofs.JsonText
import Choco.Syntax.Encode
import Mathlib.Order.MinMax

namespace Choco

open Json (record? tag? variant? depth depthOfItems depthOfFields isPlain itemsPlain fieldsPlain)

variable {α β : Type} {tag : String} {js : List Json} {j : Json}

/-- The value is what `decode` knows `a` by: it has a text, and it decodes to `a` with just as many levels
as it has. -/
structure Json.Encodes (decode : Nat → Json → Option α) (j : Json) (a : α) : Prop where
  plain : j.isPlain = true
  decode_eq (n : Nat) : decode n j = if j.depth ≤ n then some a else none

structure Json.EncodesAll (decode : Nat → Json → Option α) (js : List Json) (as : List α) : Prop where
  plain : itemsPlain js = true
  decode_eq (n : Nat) : js.mapM (decode n) = if depthOfItems js ≤ n then some as else none

namespace Json

variable {decode : Nat → Json → Option α} {j : Json} {js : List Json} {a : α} {as : List α}

@[simp] theorem depth_str (s : String) : (str s).depth = 0 := by simp [depth]

@[simp] theorem isPlain_str (s : String) : (str s).isPlain = true := by simp [isPlain]

theorem ite_bind (p : Prop) [Decidable p] (x : α) (f : α → Option β) :
    (if p then some x else none).bind f = if p then f x else none := by
  split <;> rfl

theorem ite_ite_none (p q : Prop) [Decidable p] [Decidable q] (x : Option α) :
    (if p then (if q then x else none) else none) = if p ∧ q then x else none := by
  by_cases hp : p <;> by_cases hq : q <;> simp [hp, hq]

theorem EncodesAll.nil : EncodesAll decode [] [] := ⟨rfl, fun _ => rfl⟩

theorem EncodesAll.cons (h : Encodes decode j a) (hs : EncodesAll decode js as) :
    EncodesAll decode (j :: js) (a :: as) where
  plain := by simp [itemsPlain, h.plain, hs.plain]
  decode_eq n := by
    simp only [List.mapM_cons, h.decode_eq, hs.decode_eq, Option.bind_eq_bind, ite_bind, ite_ite_none,
      Option.pure_def]
    exact if_congr (by rw [depthOfItems]; omega) rfl rfl

theorem Encodes.of_level {d : Nat} (hplain : j.isPlain = true) (hdepth : j.depth = d + 1)
    (hzero : decode 0 j = none) (hsucc : ∀ n, decode (n + 1) j = if d ≤ n then some a else none) :
    Encodes decode j a := by
  refine ⟨hplain, fun n => ?_⟩
  cases n with
  | zero => rw [hzero, if_neg (by omega)]
  | succ n => exact (hsucc n).trans (if_congr (by omega) rfl rfl)

theorem Encodes.tagged (hplain : j.isPlain = true) (hzero : decode 0 (tagged tag j) = none)
    (hsucc : ∀ n, decode (n + 1) (tagged tag j) = if j.depth ≤ n then some a else none) :
    Encodes decode (tagged tag j) a :=
  .of_level (by simp [Json.tagged, isPlain, fieldsPlain, hplain])
    (by simp [Json.tagged, depth, depthOfFields]) hzero hsucc

theorem EncodesAll.arr {decodeItems : Nat → Json → Option (List α)} (h : EncodesAll decode js as)
    (hzero : decodeItems 0 (.arr js) = none)
    (hsucc : ∀ n, decodeItems (n + 1) (.arr js) = js.mapM (decode n)) :
    Encodes decodeItems (.arr js) as :=
  .of_level (by rw [isPlain, h.plain]) (by rw [depth]) hzero fun n => (hsucc n).trans (h.decode_eq n)

end Json

open Json (Encodes EncodesAll)

theorem Ty.encodes_toJson (ty : Ty) : Encodes Ty.decode ty.toJson ty := by
  induction ty with
  | list elem ih =>
    rw [Ty.toJson]
    refine .tagged ih.plain ?_ fun n => ?_
    · simp [Json.tagged, Ty.decode, tag?]
    · simp [Json.tagged, Ty.decode, ih.decode_eq]
  | _ => exact ⟨by simp [Ty.toJson], fun n => by simp [Ty.toJson, Ty.decode, tag?, Ty.ofTag?]⟩

theorem Json.asInt32?_ofInt32 (n : Int32) : (Json.ofInt32 n).asInt32? = some n := by
  have hrange : Int32.minValue.toInt ≤ n.toInt ∧ n.toInt ≤ Int32.maxValue.toInt :=
    ⟨n.minValue_le_toInt, n.toInt_le⟩
  rw [Json.ofInt32, Json.asInt32?, if_pos hrange, Int32.ofInt_toInt]

theorem Literal.encodes_toJson (l : Literal) : Encodes Literal.decode l.toJson l := by
  cases l with
  | none => exact ⟨by simp [Literal.toJson], fun n => by simp [Literal.toJson, Literal.decode]⟩
  | int i =>
    rw [Literal.toJson]
    refine .tagged (by simp [Json.ofInt32, isPlain]) rfl fun n => ?_
    have hdepth : (Json.ofInt32 i).depth = 0 := by simp [Json.ofInt32, depth]
    simp [Json.tagged, Literal.decode, Json.asInt32?_ofInt32, hdepth]
  | bool b =>
    rw [Literal.toJson]
    exact .tagged (by simp [isPlain]) rfl fun n => by simp [Json.tagged, Literal.decode, Json.asBool?, depth]
  | str s =>
    rw [Literal.toJson]
    exact .tagged (Json.isPlain_str s) rfl fun n => by simp [Json.tagged, Literal.decode, Json.asStr?]

theorem UnaryOp.decode_tag (op : UnaryOp) (n : Nat) : UnaryOp.decode n (.str op.tag) = some op := by
  cases op <;> simp [UnaryOp.tag, UnaryOp.decode, tag?, UnaryOp.ofTag?]

theorem BinaryOp.decode_tag (op : BinaryOp) (n : Nat) : BinaryOp.decode n (.str op.tag) = some op := by
  cases op <;> simp [BinaryOp.tag, BinaryOp.decode, tag?, BinaryOp.ofTag?]

namespace Expr

variable {ty : Ty} {e : Expr} {j : Json}

theorem encodes_record (h : Encodes (decodeShape ty) j e) : Encodes decode (record j ty) e := by
  have hty := ty.encodes_toJson
  refine .of_level ?_ (by rw [Expr.record, depth]) rfl fun n => ?_
  · simp [Expr.record, isPlain, fieldsPlain, h.plain, hty.plain]
  · simp [Expr.record, decode, record?, hty.decode_eq, h.decode_eq, Json.ite_bind, Json.ite_ite_none,
      depthOfFields, and_comm]

theorem encodes_parts (htag : tag ∉ ["Literal", "Name", "List"]) (h : Encodes (decodeParts ty tag) j e) :
    Encodes (decodeShape ty) (.tagged tag j) e := by
  refine .tagged h.plain rfl fun n => ?_
  simp only [List.mem_cons, List.not_mem_nil, or_false, not_or] at htag
  simp [Json.tagged, decodeShape, variant?, htag, h.decode_eq]

theorem encodes_items {es : List Expr} (h : EncodesAll decode js es) : Encodes decodeItems (.arr js) es :=
  h.arr rfl fun _ => rfl

end Expr

mutual

theorem Expr.encodes_toJson : (e : Expr) → Encodes Expr.decode e.toJson e
  | .literal value ty => by
    have h := value.encodes_toJson
    rw [Expr.toJson]
    refine encodes_record (.tagged h.plain rfl fun n => ?_)
    simp [Json.tagged, decodeShape, variant?, h.decode_eq, Json.ite_bind]
  | .name x ty => by
    rw [Expr.toJson]
    refine encodes_record (.tagged (Json.isPlain_str x) rfl fun n => ?_)
    simp [Json.tagged, decodeShape, variant?, Json.asStr?]
  | .unary op operand ty => by
    have h := operand.encodes_toJson
    rw [Expr.toJson]
    refine encodes_record (encodes_parts (by decide) (.of_level ?_ (by rw [depth]) rfl fun n => ?_))
    · simp [isPlain, fieldsPlain, h.plain]
    · simp [decodeParts, record?, UnaryOp.decode_tag, h.decode_eq, Json.ite_bind, depthOfFields]
  | .binary op lhs rhs ty => by
    have hl := lhs.encodes_toJson
    have hr := rhs.encodes_toJson
    rw [Expr.toJson]
    refine encodes_record (encodes_parts (by decide) (.of_level ?_ (by rw [depth]) rfl fun n => ?_))
    · simp [isPlain, fieldsPlain, hl.plain, hr.plain]
    · simp [decodeParts, record?, BinaryOp.decode_tag, hl.decode_eq, hr.decode_eq, Json.ite_bind,
        Json.ite_ite_none, depthOfFields]
  | .ifExpr cond onTrue onFalse ty => by
    have hc := cond.encodes_toJson
    have ht := onTrue.encodes_toJson
    have hf := onFalse.encodes_toJson
    rw [Expr.toJson]
    refine encodes_record (encodes_parts (by decide) (.of_level ?_ (by rw [depth]) rfl fun n => ?_))
    · simp [isPlain, fieldsPlain, hc.plain, ht.plain, hf.plain]
    · simp [decodeParts, record?, hc.decode_eq, ht.decode_eq, hf.decode_eq, Json.ite_bind, Json.ite_ite_none,
        depthOfFields]
  | .list elems ty => by
    have h := encodes_items (Expr.encodes_list elems)
    rw [Expr.toJson]
    refine encodes_record (.tagged h.plain rfl fun n => ?_)
    simp [Json.tagged, decodeShape, variant?, h.decode_eq, Json.ite_bind]
  | .index base position ty => by
    have hb := base.encodes_toJson
    have hp := position.encodes_toJson
    rw [Expr.toJson]
    refine encodes_record (encodes_parts (by decide) (.of_level ?_ (by rw [depth]) rfl fun n => ?_))
    · simp [isPlain, fieldsPlain, hb.plain, hp.plain]
    · simp [decodeParts, record?, hb.decode_eq, hp.decode_eq, Json.ite_bind, Json.ite_ite_none, depthOfFields]
  | .call func args ty => by
    have h := encodes_items (Expr.encodes_list args)
    rw [Expr.toJson]
    refine encodes_record (encodes_parts (by decide) (.of_level ?_ (by rw [depth]) rfl fun n => ?_))
    · simp [isPlain, fieldsPlain, (Expr.encodes_list args).plain]
    · simp [decodeParts, record?, Json.asStr?, h.decode_eq, Json.ite_bind, depthOfFields]

theorem Expr.encodes_list : (es : List Expr) → EncodesAll Expr.decode (Expr.listToJson es) es
  | [] => by
    rw [Expr.listToJson]
    exact .nil
  | e :: es => by
    rw [Expr.listToJson]
    exact .cons e.encodes_toJson (Expr.encodes_list es)

end

theorem Assign.encodes_target {target : Expr} {others : List Expr} {value : Expr}
    (h : Encodes Assign.decodeRest j (others, value)) :
    Encodes Assign.decode (.obj [("target", target.toJson), ("value", j)]) ⟨target, others, value⟩ := by
  have ht := target.encodes_toJson
  refine .of_level ?_ (by rw [depth]) rfl fun n => ?_
  · simp [isPlain, fieldsPlain, h.plain, ht.plain]
  · simp [Assign.decode, record?, h.decode_eq, ht.decode_eq, Json.ite_bind, Json.ite_ite_none, depthOfFields,
      and_comm]

theorem Assign.encodes_chain (target : Expr) (others : List Expr) (value : Expr) :
    Encodes Assign.decode (Assign.chainToJson target others value) ⟨target, others, value⟩ := by
  induction others generalizing target with
  | nil =>
    have h := value.encodes_toJson
    rw [Assign.chainToJson]
    refine encodes_target (.tagged h.plain rfl fun n => ?_)
    simp [Json.tagged, Assign.decodeRest, variant?, h.decode_eq, Json.ite_bind]
  | cons next others ih =>
    rw [Assign.chainToJson]
    refine encodes_target (.tagged (ih next).plain rfl fun n => ?_)
    simp [Json.tagged, Assign.decodeRest, variant?, (ih next).decode_eq, Json.ite_bind, Assign.targets]

theorem Assign.encodes_toJson (a : Assign) : Encodes Assign.decode a.toJson a :=
  Assign.encodes_chain a.target a.others a.value

namespace Stmt

theorem encodes_parts {s : Stmt} (htag : tag ∉ ["Expr", "Assign", "Return", "Pass"])
    (h : Encodes (decodeParts tag) j s) :
    Encodes decode (.tagged tag j) s := by
  refine .tagged h.plain rfl fun n => ?_
  simp only [List.mem_cons, List.not_mem_nil, or_false, not_or] at htag
  simp [Json.tagged, decode, variant?, htag, h.decode_eq]

theorem encodes_items {ss : List Stmt} (h : EncodesAll decode js ss) : Encodes decodeItems (.arr js) ss :=
  h.arr rfl fun _ => rfl

end Stmt

theorem Expr.isNull_toJson (e : Expr) : e.toJson.isNull = false := by
  cases e <;> simp [Expr.toJson, Expr.record, Json.isNull]

mutual

theorem Stmt.encodes_toJson : (s : Stmt) → Encodes Stmt.decode s.toJson s
  | .expr value => by
    have h := value.encodes_toJson
    rw [Stmt.toJson]
    refine .tagged h.plain rfl fun n => ?_
    simp [Json.tagged, decode, variant?, h.decode_eq, Json.ite_bind]
  | .assign a => by
    have h := a.encodes_toJson
    rw [Stmt.toJson]
    refine .tagged h.plain rfl fun n => ?_
    simp [Json.tagged, decode, variant?, h.decode_eq, Json.ite_bind]
  | .ret none => by
    rw [Stmt.toJson]
    refine .tagged (by simp [isPlain]) rfl fun n => ?_
    simp [Json.tagged, decode, variant?, Json.isNull, depth]
  | .ret (some value) => by
    have h := value.encodes_toJson
    rw [Stmt.toJson]
    refine .tagged h.plain rfl fun n => ?_
    simp [Json.tagged, decode, variant?, value.isNull_toJson, h.decode_eq, Json.ite_bind]
  | .pass => by
    rw [Stmt.toJson]
    exact ⟨Json.isPlain_str _, fun n => by simp [decode]⟩
  | .ifElse cond onTrue onFalse => by
    have hc := cond.encodes_toJson
    have ht := encodes_items (Stmt.encodes_list onTrue)
    have hf := encodes_items (Stmt.encodes_list onFalse)
    rw [Stmt.toJson]
    refine encodes_parts (by decide) (.of_level ?_ (by rw [depth]) rfl fun n => ?_)
    · simp [isPlain, fieldsPlain, hc.plain, (Stmt.encodes_list onTrue).plain,
        (Stmt.encodes_list onFalse).plain]
    · simp [decodeParts, record?, hc.decode_eq, ht.decode_eq, hf.decode_eq, Json.ite_bind, Json.ite_ite_none,
        depthOfFields]
  | .whileLoop cond body => by
    have hc := cond.encodes_toJson
    have hb := encodes_items (Stmt.encodes_list body)
    rw [Stmt.toJson]
    refine encodes_parts (by decide) (.of_level ?_ (by rw [depth]) rfl fun n => ?_)
    · simp [isPlain, fieldsPlain, hc.plain, (Stmt.encodes_list body).plain]
    · simp [decodeParts, record?, hc.decode_eq, hb.decode_eq, Json.ite_bind, Json.ite_ite_none, depthOfFields]
  | .forLoop target iter body => by
    have hi := iter.encodes_toJson
    have hb := encodes_items (Stmt.encodes_list body)
    rw [Stmt.toJson]
    refine encodes_parts (by decide) (.of_level ?_ (by rw [depth]) rfl fun n => ?_)
    · simp [isPlain, fieldsPlain, hi.plain, (Stmt.encodes_list body).plain]
    · simp [decodeParts, record?, Json.asStr?, hi.decode_eq, hb.decode_eq, Json.ite_bind, Json.ite_ite_none,
        depthOfFields]

theorem Stmt.encodes_list : (ss : List Stmt) → EncodesAll Stmt.decode (Stmt.listToJson ss) ss
  | [] => by
    rw [Stmt.listToJson]
    exact .nil
  | s :: ss => by
    rw [Stmt.listToJson]
    exact .cons s.encodes_toJson (Stmt.encodes_list ss)

end

theorem VarDef.encodes_toJson (v : VarDef) : Encodes VarDef.decode v.toJson v := by
  have hty := v.ty.encodes_toJson
  have hinit := v.init.encodes_toJson
  refine .of_level ?_ (by rw [VarDef.toJson, depth]) rfl fun n => ?_
  · simp [VarDef.toJson, isPlain, fieldsPlain, hty.plain, hinit.plain]
  · simp [VarDef.toJson, VarDef.decode, record?, Json.asStr?, hty.decode_eq, hinit.decode_eq, Json.ite_bind,
      Json.ite_ite_none, depthOfFields]

theorem Param.encodes_toJson (p : Param) : Encodes Param.decode p.toJson p := by
  have hty := p.ty.encodes_toJson
  refine .of_level ?_ (by rw [Param.toJson, depth]) rfl fun n => ?_
  · simp [Param.toJson, isPlain, fieldsPlain, hty.plain]
  · simp [Param.toJson, Param.decode, record?, Json.asStr?, hty.decode_eq, Json.ite_bind, depthOfFields]

theorem Param.encodes_list (ps : List Param) : EncodesAll Param.decode (ps.map Param.toJson) ps := by
  induction ps with
  | nil => exact .nil
  | cons p ps ih => exact .cons p.encodes_toJson ih

theorem Param.encodes_items (ps : List Param) : Encodes Param.decodeItems (.arr (ps.map Param.toJson)) ps :=
  (Param.encodes_list ps).arr rfl fun _ => rfl

theorem Decl.encodes_items {ds : List Decl} (h : EncodesAll Decl.decode js ds) :
    Encodes Decl.decodeItems (.arr js) ds :=
  h.arr rfl fun _ => rfl

mutual

theorem Decl.encodes_toJson : (d : Decl) → Encodes Decl.decode d.toJson d
  | .var v => by
    have h := v.encodes_toJson
    rw [Decl.toJson]
    refine .tagged h.plain rfl fun n => ?_
    simp [Json.tagged, Decl.decode, variant?, h.decode_eq, Json.ite_bind]
  | .func f => by
    have h := f.encodes_toJson
    rw [Decl.toJson]
    refine .tagged h.plain rfl fun n => ?_
    simp [Json.tagged, Decl.decode, variant?, h.decode_eq, Json.ite_bind]
  | .global name | .nonlocal name => by
    rw [Decl.toJson]
    refine .tagged (Json.isPlain_str name) rfl fun n => ?_
    simp [Json.tagged, Decl.decode, variant?, Json.asStr?]

theorem FuncDef.encodes_toJson : (f : FuncDef) → Encodes FuncDef.decode f.toJson f
  | ⟨name, params, returnTy, decls, body⟩ => by
    have hp := Param.encodes_items params
    have hty := returnTy.encodes_toJson
    have hd := Decl.encodes_items (Decl.encodes_list decls)
    have hb := Stmt.encodes_items (Stmt.encodes_list body)
    rw [FuncDef.toJson]
    refine .of_level ?_ (by rw [depth]) rfl fun n => ?_
    · simp [isPlain, fieldsPlain, (Param.encodes_list params).plain, hty.plain,
        (Decl.encodes_list decls).plain, (Stmt.encodes_list body).plain]
    · simp [FuncDef.decode, record?, Json.asStr?, hp.decode_eq, hty.decode_eq, hd.decode_eq, hb.decode_eq,
        Json.ite_bind, Json.ite_ite_none, depthOfFields]

theorem Decl.encodes_list : (ds : List Decl) → EncodesAll Decl.decode (Decl.listToJson ds) ds
  | [] => by
    rw [Decl.listToJson]
    exact .nil
  | d :: ds => by
    rw [Decl.listToJson]
    exact .cons d.encodes_toJson (Decl.encodes_list ds)

end

theorem Program.encodes_toJson (p : Program) : Encodes Program.decode p.toJson p := by
  have hd := Decl.encodes_items (Decl.encodes_list p.decls)
  have hs := Stmt.encodes_items (Stmt.encodes_list p.stmts)
  refine .of_level ?_ (by rw [Program.toJson, depth]) rfl fun n => ?_
  · simp [Program.toJson, isPlain, fieldsPlain, (Decl.encodes_list p.decls).plain,
      (Stmt.encodes_list p.stmts).plain]
  · simp [Program.toJson, Program.decode, record?, hd.decode_eq, hs.decode_eq, Json.ite_bind,
      Json.ite_ite_none, depthOfFields]

/-- A program comes back from its JSON value, and from the text of that value exactly if the text nests at
most 127 levels deep; a deeper text is refused. So a program compiles alike however it is handed over. -/
theorem Program.json_round_trip (p : Program) (options : Options) :
    p.toJson.decodeWith? Program.decode = some p ∧
    Program.ofText? p.toJson.compact = (if p.toJson.depth ≤ 127 then some p else none) ∧
    options.compileText p.toJson.compact = if p.toJson.depth ≤ 127 then options.compile p
      else .error .json := by
  have h := p.encodes_toJson
  have htext : Program.ofText? p.toJson.compact = if p.toJson.depth ≤ 127 then some p else none := by
    rw [Program.ofText?, Json.parse?_compact h.plain]
    exact h.decode_eq Program.maxTextDepth
  refine ⟨?_, htext, ?_⟩
  · rw [Json.decodeWith?, h.decode_eq, if_pos (Nat.le_refl _)]
  · rw [Options.compileText, htext]
    by_cases hdepth : p.toJson.depth ≤ 127 <;> simp [hdepth]

end Choco
