import Choco.Proofs.Functions
import Choco.Proofs.Models

namespace Choco.IR

namespace Module

variable {m : Module} {c : Code}

def pushed (m : Module) (ids : List OpId) : Module :=
  { ids.foldl (setParent · (some .top)) m with body := { m.body with ops := m.body.ops ++ ids } }

theorem get?_pushed (ids : List OpId) (id : OpId) :
    (m.pushed ids).get? id =
      if id ∈ ids then (m.get? id).map fun op => { op with parent := some .top } else m.get? id :=
  get?_foldl_setParent ids (some .top) id

theorem foldl_setParent_body (ids : List OpId) (parent : Option Place) (body : Region) :
    ids.foldl (setParent · parent) { m with body } = { ids.foldl (setParent · parent) m with body } := by
  induction ids generalizing m with
  | nil => rfl
  | cons id ids ih => exact ih (m := m.setParent parent id)

theorem pushed_pushed (ids ids' : List OpId) : (m.pushed ids).pushed ids' = m.pushed (ids ++ ids') := by
  have hbody : (ids.foldl (setParent · (some .top)) m).body = m.body := (sameBut_foldl_setParent ids _).body
  simp only [pushed, foldl_setParent_body, List.foldl_append, List.append_assoc]

theorem pushFunctions_run {ids : List OpId} (h : ∀ id ∈ ids, ∃ op, m.get? id = some op) :
    ids.forM Edit.pushFunction m = .ok () (m.pushed ids) := by
  induction ids generalizing m with
  | nil => simp [pushed]; rfl
  | cons id ids ih =>
    obtain ⟨op, hop⟩ := h id List.mem_cons_self
    have hpush : Edit.pushFunction id m = .ok () (m.pushed [id]) := by
      rw [Edit.pushFunction, Action.bind_ok (Edit.setParent_run (some .top) hop)]
      rfl
    change (Edit.pushFunction id >>= fun _ => ids.forM Edit.pushFunction) m = _
    rw [Action.bind_ok hpush, ih fun id' hid' => ?_]
    · rw [pushed_pushed]
      rfl
    · obtain ⟨op', hop'⟩ := h id' (List.mem_cons_of_mem _ hid')
      rw [get?_pushed, hop']
      split <;> exact ⟨_, rfl⟩

theorem ops?_pushed_nested (ids : List OpId) (id : OpId) (index : Nat) :
    (m.pushed ids).ops? (.nested id index) = m.ops? (.nested id index) := by
  rw [ops?, get?_pushed, ops?]
  split
  · cases m.get? id <;> rfl
  · rfl

theorem sound_pushed (h : m.Sound) (ids : List OpId) : (m.pushed ids).Sound := by
  have hsame := sameBut_foldl_setParent (m := m) ids (some .top)
  refine ⟨hsame.free ▸ h.free_nodup, fun i => ?_, fun v id => ?_, fun id op v hop hv => ?_⟩
  · have hfree : (m.pushed ids).free = m.free := hsame.free
    rw [hfree, h.mem_free]
    exact exists_congr fun g => (hsame.empty i g).symm
  · have husers : (m.pushed ids).usersOf v = m.usersOf v := by
      rw [usersOf, usersOf]
      exact congrArg (fun users : Std.TreeMap Nat (List OpId) => users.getD v.index []) hsame.users
    rw [husers, h.users, get?_pushed]
    split
    · cases m.get? id <;> rfl
    · rfl
  · have hvalues : (m.pushed ids).values = m.values := values_foldl_setParent ids _
    rw [get?_pushed] at hop
    rw [hvalues]
    split at hop
    · obtain ⟨old, hold, rfl⟩ := Option.map_eq_some_iff.mp hop
      exact h.results id old v hold hv
    · exact h.results id op v hop hv

theorem models_pushed (h : Extends {} m c) : (m.pushed c.ids).Models c .nil := by
  have hbody : m.body = {} := by
    have hops := h.change.lists .top (by simp) (by simp [Place.owner?])
    have hargs := h.change.args
    simp only [ops?, Option.some.injEq] at hops
    cases hb : m.body with
    | mk args ops =>
      rw [hb] at hops hargs
      simp only at hops hargs
      rw [hops, hargs]
  refine ⟨sound_pushed h.change.sound _, ?_, ?_, trivial, by simpa using h.nodup, by simpa using h.distinct,
    fun id op hop => ?_, ?_⟩
  · simp [ops?, pushed, hbody]
  · refine h.holds.reparent h.nodup (fun id hid => ?_) (fun id hid hout => ?_) (fun id hid index => ?_) ?_
    · rw [head?, get?_pushed, if_pos hid, head?, Option.map_map, Option.map_map]
      rfl
    · rw [head?, get?_pushed, if_neg hout, head?]
    · exact ops?_pushed_nested _ _ _
    · exact (values_foldl_setParent (m := m) c.ids (some .top)).symm ▸ .refl _
  · rw [Code.allIds_nil, List.append_nil]
    by_contra hout
    have hhead := h.change.heads id (Set.notMem_empty id) hout
    have hnone : m.get? id = none := head?_eq_none.mp hhead
    rw [get?_pushed, hnone] at hop
    split at hop <;> cases hop
  · simp [pushed, hbody]

end Module

open Choco.IR.Module in
theorem ofProgram_models {p : Program} {m : Module} (h : Module.ofProgram p = .ok m) :
    ∃ c, m.Models c .nil ∧ (∀ a ∈ c.args, m.IsArg a) ∧ ∀ types, m.Typed types → ProgramCode types p c := by
  unfold Module.ofProgram at h
  split at h
  next b hrun =>
    cases h
    unfold Build.program at hrun
    obtain ⟨⟨inner, ops⟩, b₁, hblock, hrun₁⟩ := Action.bind_eq_ok.mp hrun
    obtain ⟨main, b₂, hmake, hpush⟩ := Action.bind_eq_ok.mp hrun₁
    unfold Build.block at hblock
    split at hblock
    next a s₅ hbody =>
      cases hblock
      obtain ⟨names₁, s₁, hglobals, hbody₁⟩ := Action.bind_eq_ok.mp hbody
      obtain ⟨u, s₂, hcheck, hbody₂⟩ := Action.bind_eq_ok.mp hbody₁
      obtain ⟨names₂, s₃, hbind, hbody₃⟩ := Action.bind_eq_ok.mp hbody₂
      obtain ⟨inner', s₄, hinner, hbody₄⟩ := Action.bind_eq_ok.mp hbody₃
      obtain ⟨u', s₅', hstmts, hbody₅⟩ := Action.bind_eq_ok.mp hbody₄
      obtain ⟨u'', s₆, hreturn, hbody₆⟩ := Action.bind_eq_ok.mp hbody₅
      obtain ⟨heq, rfl⟩ := Action.pure_eq_ok.mp hbody₆
      cases heq
      obtain ⟨c₁, hgrown₁, hc₁⟩ := Build.gives_globals {} p.decls _ _ _ sound_empty hglobals
      obtain ⟨hchecked, rfl⟩ := Build.ofExcept_eq_ok.mp hcheck
      obtain ⟨hnames₂, rfl⟩ := Build.ofExcept_eq_ok.mp hbind
      obtain ⟨cin, hext, hsame, rfl, hcin⟩ :=
        Build.defines_functions names₂ "" p.decls _ _ _ hgrown₁.module.change.sound hinner
      obtain ⟨c₂, hgrown₂, hc₂⟩ := Build.gives_stmts names₂ p.stmts _ _ _ hext.change.sound hstmts
      obtain ⟨c₃, hgrown₃, hc₃⟩ := Build.gives_implicitReturn _ _ _ hgrown₂.module.change.sound hreturn
      have hall := (hgrown₁.module.trans (hext.trans (hgrown₂.trans hgrown₃).module)).swap
      have hops : s₆.block.toList = (c₁ ++ (c₂ ++ c₃)).ids := by
        rw [hgrown₃.block, hgrown₂.block, hsame, hgrown₁.block]
        simp
      obtain ⟨rfl, rfl⟩ := Build.edit_make_eq_ok.mp hmake
      simp only [hops] at hpush
      have hargs : ∀ v ∈ ([] : List ValueId), (0 : Nat) ≤ v.index ∧ Build.Unowned s₆.module v := by simp
      obtain ⟨hsettles, hcreated⟩ := Build.create_function entryFunction .none hall hargs
      generalize hfn : s₆.module.create (.funcDef entryFunction .none) []
        [{ ops := (c₁ ++ (c₂ ++ c₃)).ids }] = made at hpush hsettles hcreated
      have hcode : Extends {} made.2
          (.each ⟨made.1, .funcDef entryFunction .none, [], none⟩ [] (c₁ ++ (c₂ ++ c₃)) cin) := by
        refine hcreated.reorder (fun h => ?_) ?_ ?_ fun a ha => ?_
        · obtain ⟨hcin, hnode, hlist, hbody, -⟩ := holds_append.mp h
          exact ⟨hnode, hlist, hbody, hcin⟩
        · rw [List.perm_iff_count]
          intro id
          simp only [Code.allIds_append, Code.allIds_each, Code.allIds_nil, List.count_append,
            List.count_cons, List.count_nil]
          omega
        · rw [List.perm_iff_count]
          intro v
          simp only [Code.results_append, Code.results_each, Code.results_nil, List.count_append,
            List.count_nil]
          omega
        · simp only [Code.args_append, Code.args_each, Code.args_nil, List.mem_append] at ha ⊢
          tauto
      have hlive : ∀ id ∈ made.1 :: cin.ids, ∃ op, made.2.get? id = some op := fun id hid =>
        hcode.holds.live (Code.ids_subset_allIds _ hid)
      have hmodule : b.module = made.2.pushed (made.1 :: cin.ids) := by
        have hrun := pushFunctions_run hlive
        simp only [Build.edit, hrun] at hpush
        cases hpush
        rfl
      have hvalues : b.module.values = made.2.values := by
        rw [hmodule]
        exact values_foldl_setParent (m := made.2) (made.1 :: cin.ids) (some .top)
      refine ⟨_, hmodule ▸ models_pushed hcode,
        fun a ha => (hcode.args a ha).settles (hvalues.symm ▸ .refl _),
        fun types ht => ?_⟩
      have ht₇ : made.2.Typed types := ht.of_settles (hvalues.symm ▸ .refl _)
      have ht₆ := ht₇.of_settles hsettles
      have ht₅ := ht₆.of_settles hgrown₃.module.change.values
      have ht₄ := ht₅.of_settles hgrown₂.module.change.values
      have ht₁ := ht₄.of_settles hext.change.values
      exact ⟨names₁, names₂, c₁, c₂, c₃, cin, made.1, rfl, hc₁ types ht₁, hchecked, hnames₂, hcin types ht₄,
        hc₂ types ht₅, hc₃ types ht₆⟩
    next => cases hblock
  next => cases h

end Choco.IR
