import Choco.Proofs.StraightRuns

namespace Choco.IR

open Instruction

section Worlds

variable {v : ValueId}

def Content.rename (θ : ValueId → ValueId) : Content → Content
  | word w => word w
  | cell name => cell (θ name)

def Content.Within (K : List ValueId) (c : Content) : Prop := ∀ v, c = cell v → v ∈ K

theorem Content.within_word (K : List ValueId) (w : Int32) : (word w).Within K := nofun

/-- Of storage, only what happens to this one is seen. -/
def Event.visible (K : List ValueId) : Event → Bool
  | assign name _ => name ∈ K
  | _ => true

def Event.rename (θ : ValueId → ValueId) : Event → Event
  | assign name value => assign (θ name) value
  | e => e

section Events

variable (K : List ValueId) (θ : ValueId → ValueId) (func : String) (args : List Int32)
  (address value : Int32) (v : ValueId)

@[simp] theorem Event.visible_call : visible K (call func args) = true := rfl

@[simp] theorem Event.visible_store : visible K (store address value) = true := rfl

@[simp] theorem Event.visible_assign : visible K (assign v value) = decide (v ∈ K) := rfl

@[simp] theorem Event.rename_call : rename θ (call func args) = call func args := rfl

@[simp] theorem Event.rename_store : rename θ (store address value) = store address value := rfl

@[simp] theorem Event.rename_assign : rename θ (assign v value) = assign (θ v) value := rfl

@[simp] theorem Event.call?_rename (e : Event) : (e.rename θ).call? = e.call? := by
  cases e <;> rfl

theorem Event.visible_of_call? {e : Event} {c : String × List Int32} (h : e.call? = some c) :
    visible K e := by
  cases e with
  | call => rfl
  | store | assign => cases h

end Events

/-- The worlds have the same memory, and the same storage under other names; the same has happened to both. -/
structure World.Alike (K : List ValueId) (θ : ValueId → ValueId) (w w' : World) : Prop where
  memory : w'.memory = w.memory
  cells : ∀ v ∈ K, w'.cells (θ v) = w.cells v
  log : w'.log.filter (Event.visible (K.map θ)) = (w.log.filter (Event.visible K)).map (Event.rename θ)

structure Host.Alike (K : List ValueId) (θ : ValueId → ValueId) (host host' : Host) : Prop where
  injective : ∀ u ∈ K, ∀ v ∈ K, θ u = θ v → u = v
  address : ∀ v ∈ K, host'.address (θ v) = host.address v
  reply : host'.reply = host.reply

theorem Host.Alike.refl (K : List ValueId) (host : Host) : host.Alike K id host :=
  ⟨fun _ _ _ _ h => h, fun _ _ => rfl, rfl⟩

variable {K : List ValueId} {θ : ValueId → ValueId} {host host' : Host} {w w' : World} {c : Content}

theorem filterMap_call?_filter (K : List ValueId) (log : List Event) :
    (log.filter (Event.visible K)).filterMap Event.call? = log.filterMap Event.call? := by
  rw [List.filterMap_filter]
  refine List.filterMap_congr fun e _ => ?_
  cases h : e.call? with
  | none => simp
  | some c => simp [Event.visible_of_call? K h]

theorem World.Alike.calls_eq (h : w.Alike K θ w') : w'.calls = w.calls := by
  have hcall : Event.call? ∘ Event.rename θ = Event.call? := by
    funext e
    exact e.call?_rename θ
  rw [World.calls, ← filterMap_call?_filter (K.map θ), h.log, List.filterMap_map, hcall,
    filterMap_call?_filter]
  rfl

theorem World.Alike.note_call (h : w.Alike K θ w') (func : String) (args : List Int32) :
    (w.note (.call func args)).Alike K θ (w'.note (.call func args)) where
  memory := h.memory
  cells := h.cells
  log := by simp [World.note, h.log, List.filter_cons]

theorem World.Alike.write (h : w.Alike K θ w') (address value : Int32) :
    (w.write address value).Alike K θ (w'.write address value) where
  memory := by simp [World.write, h.memory]
  cells := h.cells
  log := by simp [World.write, h.log, List.filter_cons]

theorem World.Alike.assign (h : w.Alike K θ w') (hhost : host.Alike K θ host') (hv : v ∈ K) (value : Int32) :
    (w.assign v value).Alike K θ (w'.assign (θ v) value) where
  memory := h.memory
  cells u hu := by
    by_cases huv : u = v
    · simp [World.assign, huv]
    · have hne : θ u ≠ θ v := fun he => huv (hhost.injective u hu v hv he)
      simp [World.assign, Function.update_of_ne, huv, hne, h.cells u hu]
  log := by
    simp [World.assign, h.log, hv, List.mem_map_of_mem hv, -List.mem_map]

theorem World.Alike.assign_hidden (h : w.Alike K id w') (hv : v ∉ K) (value : Int32) :
    w.Alike K id (w'.assign v value) where
  memory := h.memory
  cells u hu := by
    have hne : u ≠ v := fun he => hv (he ▸ hu)
    simpa [World.assign, Function.update_of_ne hne] using h.cells u hu
  log := by
    have hlog := h.log
    simp only [List.map_id] at hlog
    simp [World.assign, hlog, hv]

theorem World.Alike.fill (h : w.Alike K θ w') (address : Int32) (index : Nat) (values : List Int32) :
    (w.fill address index values).Alike K θ (w'.fill address index values) := by
  induction values generalizing index w w' with
  | nil => exact h
  | cons value values ih => exact ih (h.write ..) (index + 1)

theorem Host.Alike.word_eq (h : host.Alike K θ host') (hc : c.Within K) :
    host'.word (c.rename θ) = host.word c := by
  cases c with
  | word w => rfl
  | cell v => exact h.address v (hc v rfl)

theorem Host.Alike.load_eq (h : host.Alike K θ host') (hw : w.Alike K θ w') (hc : c.Within K)
    (offset : Int32) :
    host'.load w' (c.rename θ) offset = host.load w c offset := by
  cases c with
  | word a => exact congrFun hw.memory (a + offset)
  | cell v =>
    rw [Host.load, Content.rename, Host.load, hw.cells v (hc v rfl), hw.memory, h.address v (hc v rfl)]

theorem Host.Alike.store (h : host.Alike K θ host') (hw : w.Alike K θ w') (hc : c.Within K)
    (offset value : Int32) :
    (host.store w c offset value).Alike K θ (host'.store w' (c.rename θ) offset value) := by
  cases c with
  | word a => exact hw.write ..
  | cell v =>
    have hv := hc v rfl
    rw [Host.store, Content.rename, Host.store, h.address v hv]
    split
    · exact hw.assign h hv value
    · exact hw.write ..

theorem Host.Alike.answer_eq (h : host.Alike K θ host') (hw : w.Alike K θ w') (func : String)
    (args : List Int32) :
    host'.answer w' func args = host.answer w func args := by
  rw [Host.answer, Host.answer, h.reply, (hw.note_call func args).calls_eq]

end Worlds

section Perform

variable {K : List ValueId} {host : Host} {w w' : World} {xs : List Content} {c x : Content} {kind : Kind}

def Steady (K : List ValueId) (f : World → Exit × World) : Prop :=
  ∀ w w' : World, w.Alike K id w' → (f w').1 = (f w).1 ∧ (f w).2.Alike K id (f w').2

theorem Content.rename_id (c : Content) : c.rename id = c := by
  cases c <;> rfl

theorem Host.load_eq_of_alike (hw : w.Alike K id w') (hc : c.Within K) (offset : Int32) :
    host.load w' c offset = host.load w c offset := by
  simpa only [Content.rename_id] using (Host.Alike.refl K host).load_eq hw hc offset

theorem Host.store_alike (hw : w.Alike K id w') (hc : c.Within K) (offset value : Int32) :
    (host.store w c offset value).Alike K id (host.store w' c offset value) := by
  simpa only [Content.rename_id] using (Host.Alike.refl K host).store hw hc offset value

theorem Host.steady_object (values : List Int32) : Steady K (host.object values) := by
  intro w w' hw
  have hanswer := (Host.Alike.refl K host).answer_eq hw Library.malloc [Int32.ofNat (4 * values.length + 4)]
  simp only [Host.object, hanswer, true_and]
  exact ((hw.note_call ..).write ..).fill ..

theorem Host.steady_length (hx : x.Within K) : Steady K (host.length x) := by
  intro w w' hw
  rw [Host.length, Host.length, Host.load_eq_of_alike hw hx]
  split <;> exact ⟨rfl, hw⟩

theorem Host.steady_element (hx : x.Within K) (index : Int32) : Steady K (host.element x index) := by
  intro w w' hw
  rw [Host.element, Host.element, Host.load_eq_of_alike hw hx]
  split
  · exact ⟨rfl, hw⟩
  · split <;> exact ⟨rfl, hw⟩

theorem Host.stores_alike {locations : List Content} (hlocations : ∀ l ∈ locations, l.Within K)
    (hw : w.Alike K id w') (value : Int32) :
    (locations.foldl (fun w location => host.store w location 0 value) w).Alike K id
      (locations.foldl (fun w location => host.store w location 0 value) w') := by
  induction locations generalizing w w' with
  | nil => exact hw
  | cons l locations ih =>
    rw [List.forall_mem_cons] at hlocations
    exact ih hlocations.2 (Host.store_alike hw hlocations.1 0 value)

theorem Host.steady_perform (kind : Kind) (result : Option ValueId) (hxs : ∀ x ∈ xs, x.Within K) :
    Steady K (host.perform kind xs result) := by
  have hsame {exit : Exit} : Steady K fun w => (exit, w) := fun _ _ hw => ⟨rfl, hw⟩
  unfold Host.perform
  split
  · exact Host.steady_object _
  · exact hsame
  · exact hsame
  · split <;> exact hsame
  · exact hsame
  · rw [List.forall_mem_cons] at hxs
    exact fun _ _ hw => ⟨rfl, Host.stores_alike hxs.2 hw _⟩
  · exact hsame
  · exact fun _ _ hw => ⟨by simp only [Host.load_eq_of_alike hw (hxs _ (List.mem_singleton_self _))], hw⟩
  · exact fun _ _ hw => ⟨rfl, Host.store_alike hw (hxs _ (List.mem_cons_self ..)) 0 _⟩
  · split
    · next x hx =>
        refine Host.steady_length (hxs x ?_)
        split at hx
        · exact List.mem_of_mem_head? hx
        · cases hx
    · exact fun _ _ hw => ⟨by simp only [(Host.Alike.refl K host).answer_eq hw], hw.note_call ..⟩
  · exact Host.steady_object _
  · exact Host.steady_element (hxs _ (List.mem_cons_self ..)) _
  · exact Host.steady_element (hxs _ (List.mem_cons_self ..)) _
  · exact hsame

theorem Host.perform_result (h : kind.isAlloc = false) (xs : List Content) (r r' : Option ValueId) :
    host.perform kind xs r = host.perform kind xs r' := by
  cases kind with
  | alloc => cases h
  | literal l => cases l <;> rfl
  | _ => rcases xs with _ | ⟨x, _ | ⟨y, _ | _⟩⟩ <;> rfl

def Keeping (K : List ValueId) (f : World → Exit × World) : Prop :=
  ∀ w c, (f w).1 = .next (some c) → c.Within K

theorem Host.keeping_length (x : Content) : Keeping K (host.length x) := by
  intro w c h
  rw [Host.length] at h
  split at h
  · cases h
  · cases h
    exact Content.within_word K _

theorem Host.keeping_element (x : Content) (index : Int32) : Keeping K (host.element x index) := by
  intro w c h
  rw [Host.element] at h
  split at h
  · cases h
  split at h
  · cases h
  · cases h
    exact Content.within_word K _

theorem Host.keeping_perform {result : Option ValueId} (hresult : kind.isAlloc → ∀ v ∈ result, v ∈ K) :
    Keeping K (host.perform kind xs result) := by
  have hword {f : World → Int32} {g : World → World} :
      Keeping K fun w => (.next (some (.word (f w))), g w) := by
    rintro w _ ⟨⟩
    exact Content.within_word K _
  unfold Host.perform
  split
  · exact hword
  · rintro w c h
    obtain ⟨v, -, rfl⟩ := Option.map_eq_some_iff.mp (Exit.next.inj h)
    exact Content.within_word K v
  · exact hword
  · split
    · exact hword
    · exact fun _ _ => nofun
  · exact fun _ _ => nofun
  · exact fun _ _ => nofun
  · rintro w c h u rfl
    obtain ⟨v, hv, hu⟩ := Option.map_eq_some_iff.mp (Exit.next.inj h)
    cases hu
    exact hresult rfl u hv
  · exact hword
  · exact fun _ _ => nofun
  · split
    · exact Host.keeping_length _
    · exact hword
  · exact hword
  · exact Host.keeping_element _ _
  · exact Host.keeping_element _ _
  · exact fun _ _ => nofun

end Perform

end Choco.IR
