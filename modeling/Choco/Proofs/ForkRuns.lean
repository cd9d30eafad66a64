import Choco.Proofs.Simulation

namespace Choco.IR

open Instruction

variable {position : Nat}

section Branches

variable {host : Host} {P is : List Instruction} {i : Instruction} {k : Nat} {s t : State} {x y : ValueId}
  {cond : Cond} {c : Construct} {role : String} {n : Nat}

theorem Construct.head?_label (c : Construct) (role : String) (n : Nat) :
    (c.label role n).toList.head? = some '.' :=
  Mark.head?_text ⟨c, role, n⟩

theorem Sits.step (h : Sits P k (i :: is)) (hrun : i.run host s = some (.next t)) :
    Steps host P 1 ⟨k, s⟩ ⟨k + 1, t⟩ :=
  .one (by simp [IR.step, h.head, hrun])

theorem Sits.passed {label : String} (h : Sits P k (act (.branch cond label) [x, y] :: is))
    (hholds : cond.holds (host.word (s.values x)) (host.word (s.values y)) = false) :
    Steps host P 1 ⟨k, s⟩ ⟨k + 1, s⟩ :=
  h.step (by rw [run_branch, hholds]; rfl)

theorem Sits.taken (h : Sits P k (act (.branch cond (c.label role n)) [x, y] :: is))
    (hholds : cond.holds (host.word (s.values x)) (host.word (s.values y)) = true)
    (hposition : labelPosition P (c.label role n) = some position) : Steps host P 1 ⟨k, s⟩ ⟨position, s⟩ :=
  h.jump (by rw [run_branch, hholds]; rfl) (c.head?_label role n) hposition

theorem Sits.jumped {xs : List ValueId} (h : Sits P k (act (.jump (c.label role n)) xs :: is))
    (hposition : labelPosition P (c.label role n) = some position) : Steps host P 1 ⟨k, s⟩ ⟨position, s⟩ :=
  h.jump (run_jump ..) (c.head?_label role n) hposition

end Branches

section Select

variable (host : Host) (fuel : Nat) (id : OpId) (cond : ValueId) (r : Option Def) (op : BinaryOp)
  (first second : State → Exit × State) (s : State)

theorem Host.select_shortCircuit :
    host.select fuel ⟨id, .shortCircuit op, [], r⟩ first second s = andThen (first s) fun value t =>
    if value.any fun x => decides op (host.word x) then (.next value, t) else second t := rfl

theorem Host.select_ifExpr : host.select fuel ⟨id, .ifExpr, [cond], r⟩ first second s =
    if host.word (s.values cond) = 0 then second s else first s := rfl

theorem Host.select_ifElse : host.select fuel ⟨id, .ifElse, [cond], r⟩ first second s =
    if host.word (s.values cond) = 0 then second s else first s := rfl

theorem Host.select_whileLoop :
    host.select fuel ⟨id, .whileLoop, [], r⟩ first second s = host.iterate first second fuel s := rfl

end Select

section Forks

variable {host : Host} {P is js : List Instruction} {K : List ValueId} {fuel number : Nat}
  {V : ValueId → Prop} {id : OpId} {first second : State → Exit × State} {cond x y slot zero : ValueId}
  {r : Def} {s' t t' : State} {ks : List Instruction} {op : BinaryOp} {construct : Construct} {skip : Cond}

theorem Follows.cast {c : Config} {stop stop' : Nat} {Q : Option Content → State → State → Prop}
    {r : Exit × State} (he : stop = stop') (h : Follows host P K fuel c stop Q r) :
    Follows host P K fuel c stop' Q r := he ▸ h

theorem After.widen {z : State} (h : After K V is z t t')
    (hframe : ∀ u ∉ definitions ks, u ∉ definitions is ∧ z.values u = s'.values u) : After K V ks s' t t' :=
  ⟨h.agree, fun u hu => (h.frame u (hframe u hu).1).trans (hframe u hu).2⟩

section Tests

variable {c : Construct} {role label : String} {test : Cond} {k : Nat} {s : State}

theorem holds_zeroed (host : Host) (s : State) (test : Cond) (hne : x ≠ zero) :
    test.holds (host.word ((s.define (some zero) (some (.word 0))).values x))
      (host.word ((s.define (some zero) (some (.word 0))).values zero)) = test.holds
      (host.word (s.values x)) 0 := by
  rw [State.values_define_of_ne hne, State.values_define, if_pos rfl, Host.word_word]

theorem Sits.tested
    (h : Sits P k (word (.li 0) [] zero :: act (.branch test (c.label role number)) [x, zero] :: is))
    (hne : x ≠ zero) (hholds : test.holds (host.word (s.values x)) 0 = true)
    (hposition : labelPosition P (c.label role number) = some position) :
    Steps host P 2 ⟨k, s⟩ ⟨position, s.define (some zero) (some (.word 0))⟩ :=
  (h.step (run_li ..)).trans (h.tail.taken ((holds_zeroed host s test hne).trans hholds) hposition)

theorem Sits.tested_not
    (h : Sits P k (word (.li 0) [] zero :: act (.branch test (c.label role number)) [x, zero] ::
    act (.label label) [] :: is)) (hne : x ≠ zero) (hholds : test.holds (host.word (s.values x)) 0 = false) :
    Steps host P 3 ⟨k, s⟩ ⟨k + 1 + 1 + 1, s.define (some zero) (some (.word 0))⟩ :=
  (h.step (run_li ..)).trans ((h.tail.passed ((holds_zeroed host s test hne).trans hholds)).trans
    (h.tail.tail.step (run_label ..)))

end Tests

theorem simulates_ifElse (hP : Labeled P) (hfirst : Simulates host P K fuel V is none first)
    (hsecond : Simulates host P K fuel V js none second) (hcond : V cond) (hzero : ¬ V zero) :
    SimulatesNode host P K fuel V
      (word (.li 0) [] zero :: act (.branch .eq (Construct.ifElse.label "else" number)) [cond, zero] ::
      act (.label (Construct.ifElse.label "then" number)) [] ::
      (is ++ (act (.jump (Construct.ifElse.label "after" number)) [] ::
        act (.label (Construct.ifElse.label "else" number)) [] ::
        (js ++ [act (.label (Construct.ifElse.label "after" number)) []]))))
      ⟨id, .ifElse, [cond], none⟩ (host.select fuel ⟨id, .ifElse, [cond], none⟩ first second) := by
  intro k s s' hsits hagree
  let z := s'.define (some zero) (some (.word 0))
  have hz : Agree K V s z := hagree.define hzero _
  have hframe (u : ValueId) (hu : u ≠ zero) : z.values u = s'.values u := State.values_define_of_ne hu
  have hne : cond ≠ zero := fun he => hzero (he ▸ hcond)
  obtain ⟨hthen, hjump⟩ := hsits.tail.tail.tail.append
  obtain ⟨helse, hafter⟩ := hjump.tail.tail.append
  rw [Host.select_ifElse, ← hagree.values cond hcond]
  refine Follows.cast (?_ : k + 1 + 1 + 1 + is.length + 1 + 1 + js.length + 1 = _) ?_
  · simp only [List.length_cons, List.length_append, List.length_nil]
    omega
  by_cases h : host.word (s'.values cond) = 0
  · rw [if_pos h]
    have htested := hsits.tested hne (beq_iff_eq.mpr h) (hP.position_eq hjump.tail)
    refine ((hsecond _ s z helse hz).finish fun value t t' hran => ?_).begin
      (htested.trans (hjump.tail.step (run_label ..)))
    have hend := hran.1
    refine ⟨1, t', hafter.step (run_label ..), hend.widen fun u hu => ?_, by simp [Node.results]⟩
    simp only [definitions_cons, definitions_append, Option.toList_some, Option.toList_none, List.nil_append,
      List.mem_append, List.mem_singleton, not_or] at hu
    exact ⟨hu.2.2.1, hframe u hu.1⟩
  · rw [if_neg h]
    refine ((hfirst _ s z hthen hz).finish fun value t t' hran => ?_).begin
      (hsits.tested_not hne (beq_eq_false_iff_ne.mpr h))
    have hend := hran.1
    refine ⟨_, t', (hjump.jumped (hP.position_eq hafter)).trans (hafter.step (run_label ..)),
      hend.widen fun u hu => ?_, by simp [Node.results]⟩
    simp only [definitions_cons, definitions_append, Option.toList_some, Option.toList_none, List.nil_append,
      List.mem_append, List.mem_singleton, not_or] at hu
    exact ⟨hu.2.1, hframe u hu.1⟩

theorem simulates_whileLoop (hP : Labeled P) (hfirst : Simulates host P K fuel V is (some x) first)
    (hsecond : Simulates host P K fuel V js none second) (hx : x ≠ zero) (hzero : ¬ V zero) :
    SimulatesNode host P K fuel V (act (.label (Construct.whileLoop.label "cond" number)) [] ::
      (is ++ (word (.li 0) [] zero :: act (.branch .eq (Construct.whileLoop.label "after" number))
        [x, zero] ::
        act (.label (Construct.whileLoop.label "body" number)) [] ::
        (js ++ [act (.jump (Construct.whileLoop.label "cond" number)) [],
          act (.label (Construct.whileLoop.label "after" number)) []]))))
      ⟨id, .whileLoop, [], none⟩ (host.select fuel ⟨id, .whileLoop, [], none⟩ first second) := by
  intro k s s' hsits hagree
  rw [Host.select_whileLoop]
  obtain ⟨htest, hbranch⟩ := hsits.tail.append
  obtain ⟨hbody, hjump⟩ := hbranch.tail.tail.tail.append
  refine Follows.cast (?_ : k + 1 + is.length + 1 + 1 + 1 + js.length + 1 + 1 = _) ?_
  · simp only [List.length_cons, List.length_append, List.length_nil]
    omega
  -- Each round takes a step at least, so that the rounds that are left bound the steps from below.
  suffices hrounds : ∀ rounds ≤ fuel, ∀ s s' : State, Agree K V s s' → Follows host P K rounds ⟨k, s'⟩
      (k + 1 + is.length + 1 + 1 + 1 + js.length + 1 + 1) (fun _ t t' => Agree K V t t' ∧
        ∀ u, u ∉ definitions is → u ∉ definitions js → u ≠ zero → t'.values u = s'.values u)
      (host.iterate first second rounds s) by
    refine (hrounds fuel le_rfl s s' hagree).finish fun value t t' hlast => ?_
    obtain ⟨hend, hframe⟩ := hlast
    refine ⟨0, t', .refl _, ⟨hend, fun u hu => ?_⟩, by simp [Node.results]⟩
    simp only [definitions_cons, definitions_append, Option.toList_some, Option.toList_none, List.nil_append,
      List.mem_append, List.mem_singleton, not_or] at hu
    exact hframe u hu.1 hu.2.2.1 hu.2.1
  intro rounds hrounds s s' hagree
  induction rounds generalizing s s' with
  | zero => exact ⟨0, _, le_rfl, .refl _, hagree.world⟩
  | succ rounds ih =>
    rw [Host.iterate]
    refine Follows.begin (hsits.step (run_label ..)) (((hfirst _ s s' htest hagree).mono hrounds).andThen
      fun value t t' htested => ?_)
    obtain ⟨hend, hvalue⟩ := htested
    obtain rfl := hvalue x rfl
    let z := t'.define (some zero) (some (.word 0))
    have hz : Agree K V t z := hend.agree.define hzero _
    have hframe (u : ValueId) (hu : u ∉ definitions is) (hne : u ≠ zero) : z.values u = s'.values u :=
      (State.values_define_of_ne hne).trans (hend.frame u hu)
    simp only [Option.map_some, Host.word_word, Option.some.injEq]
    by_cases h : host.word (t'.values x) = 0
    · rw [if_pos h]
      have htested := hbranch.tested hx (beq_iff_eq.mpr h) (hP.position_eq hjump.tail)
      exact ⟨_, z, htested.trans (hjump.tail.step (run_label ..)), hz, fun u hu _ hne => hframe u hu hne⟩
    · rw [if_neg h]
      refine Follows.begin (hbranch.tested_not hx (beq_eq_false_iff_ne.mpr h))
        (((hsecond _ t z hbody hz).mono hrounds).andThen fun _ u u' hdone => ?_)
      have hround := hdone.1
      have hagain := (ih (Nat.le_of_succ_le hrounds) u u' hround.agree).after
        (hjump.jumped (hP.position_eq hsits))
      rw [Nat.add_comm] at hagain
      refine hagain.finish fun value v v' hlast => ⟨0, v', .refl _, hlast.1, fun u hi hj hne => ?_⟩
      rw [hlast.2 u hi hj hne, hround.frame u hj, hframe u hi hne]

def merged (t : State) (slot v : ValueId) (w : Int32) : State :=
  State.define ⟨t.values, t.world.assign slot w⟩ (some v) (some (.word w))

theorem After.merge (h : Agree K V t t') (hslot : slot ∉ K) (hr : ¬ V r.value) {n : Node}
    (hn : n.result = some r) (hframe : ∀ u ∉ definitions ks, u ≠ r.value ∧ t'.values u = s'.values u)
    (w : Int32) :
    After K V ks s' t (merged t' slot r.value w) ∧
      ∀ u ∈ n.results, some (.word w) = some ((merged t' slot r.value w).values u) ∧
        ((merged t' slot r.value w).values u).Within K := by
  refine ⟨⟨?_, fun u hu => ?_⟩, fun u hu => ?_⟩
  · refine (h.change (u := ⟨t'.values, t'.world.assign slot w⟩) (fun _ _ => rfl) ?_).define hr _
    exact h.world.assign_hidden hslot w
  · exact (State.values_define_of_ne (hframe u hu).1).trans (hframe u hu).2
  · obtain rfl : u = r.value := by simpa [Node.results, hn] using hu
    simp [merged, Content.within_word]

section Merge

variable {k : Nat} {t : State} {ks : List Instruction} {label : String} {v : ValueId}

theorem Sits.storeSlot (host : Host) (h : Sits P k (act (.sw 0) [slot, y] :: ks))
    (hslot : t.values slot = .cell slot) :
    Steps host P 1 ⟨k, t⟩ ⟨k + 1, ⟨t.values, t.world.assign slot (host.word (t.values y))⟩⟩ :=
  h.step (by simp [hslot, Host.store])

theorem Sits.loadSlot (host : Host) {w : Int32}
    (h : Sits P k (act (.label label) [] :: word (.lw 0) [slot] v :: ks))
    (hslot : t.values slot = .cell slot) :
    Steps host P 2 ⟨k, ⟨t.values, t.world.assign slot w⟩⟩ ⟨k + 1 + 1, merged t slot v w⟩ :=
  (h.step (run_label ..)).trans (h.tail.step (by simp [hslot, Host.load, merged, World.assign]))

end Merge

theorem simulates_ifExpr (hP : Labeled P) (hfirst : Simulates host P K fuel V is (some x) first)
    (hsecond : Simulates host P K fuel V js (some y) second) (hcond : V cond) (hslot : slot ∉ K)
    (hnodup : ([slot, zero] ++ (definitions is ++ (definitions js ++ [r.value]))).Nodup)
    (hfresh : ¬ V slot ∧ ¬ V zero ∧ ¬ V r.value) :
    SimulatesNode host P K fuel V (word .alloc [] slot :: word (.li 0) [] zero ::
      act (.branch .eq (Construct.ifExpr.label "else" number)) [cond, zero] ::
      act (.label (Construct.ifExpr.label "then" number)) [] ::
      (is ++ (act (.sw 0) [slot, x] :: act (.jump (Construct.ifExpr.label "after" number)) [] ::
        act (.label (Construct.ifExpr.label "else" number)) [] ::
        (js ++ [act (.sw 0) [slot, y], act (.label (Construct.ifExpr.label "after" number)) [],
          word (.lw 0) [slot] r.value]))))
      ⟨id, .ifExpr, [cond], some r⟩ (host.select fuel ⟨id, .ifExpr, [cond], some r⟩ first second) := by
  intro k s s' hsits hagree
  obtain ⟨hslotV, hzeroV, hrV⟩ := hfresh
  simp only [List.cons_append, List.nil_append, List.nodup_cons, List.mem_cons, List.mem_append, not_or]
    at hnodup
  obtain ⟨⟨hne, hslotIs, hslotJs, -⟩, -⟩ := hnodup
  let a := s'.define (some slot) (some (.cell slot))
  let z := a.define (some zero) (some (.word 0))
  have ha : Agree K V s a := hagree.define hslotV _
  have hz : Agree K V s z := ha.define hzeroV _
  have hslotZ : z.values slot = .cell slot := by simp [z, a, hne]
  have hframe (u : ValueId) (hslot : u ≠ slot) (hzero : u ≠ zero) : z.values u = s'.values u :=
    (State.values_define_of_ne hzero).trans (State.values_define_of_ne hslot)
  have hcondNe : cond ≠ zero := fun he => hzeroV (he ▸ hcond)
  obtain ⟨hthen, hstore⟩ := hsits.tail.tail.tail.tail.append
  obtain ⟨helse, hmerge⟩ := hstore.tail.tail.tail.append
  have hstart := hsits.step (s := s') (run_alloc host ..)
  rw [Host.select_ifExpr, ← ha.values cond hcond]
  refine Follows.cast (?_ : k + 1 + 1 + 1 + 1 + is.length + 1 + 1 + 1 + js.length + 1 + 1 + 1 = _) ?_
  · simp only [List.length_cons, List.length_append, List.length_nil]
    omega
  by_cases h : host.word (a.values cond) = 0
  · rw [if_pos h]
    have htested := hsits.tail.tested hcondNe (beq_iff_eq.mpr h) (hP.position_eq hstore.tail.tail)
    refine ((hsecond _ s z helse hz).finish fun value t t' hran => ?_).begin
      (hstart.trans (htested.trans (hstore.tail.tail.step (run_label ..))))
    obtain ⟨hend, hvalue⟩ := hran
    obtain rfl := hvalue y rfl
    have hkept : t'.values slot = .cell slot := (hend.frame slot hslotJs).trans hslotZ
    refine ⟨_, _, (hmerge.storeSlot host hkept).trans (hmerge.tail.loadSlot host hkept),
      After.merge hend.agree hslot hrV rfl (fun u hu => ?_) _⟩
    simp only [definitions_cons, definitions_append, definitions_nil, Option.toList_some, Option.toList_none,
      List.nil_append, List.append_nil, List.mem_append, List.mem_singleton, not_or] at hu
    exact ⟨hu.2.2.2.2, (hend.frame u hu.2.2.2.1).trans (hframe u hu.1 hu.2.1)⟩
  · rw [if_neg h]
    refine ((hfirst _ s z hthen hz).finish fun value t t' hran => ?_).begin
      (hstart.trans (hsits.tail.tested_not hcondNe (beq_eq_false_iff_ne.mpr h)))
    obtain ⟨hend, hvalue⟩ := hran
    obtain rfl := hvalue x rfl
    have hkept : t'.values slot = .cell slot := (hend.frame slot hslotIs).trans hslotZ
    refine ⟨_, _, (hstore.storeSlot host hkept).trans ((hstore.tail.jumped (hP.position_eq hmerge.tail)).trans
      (hmerge.tail.loadSlot host hkept)), After.merge hend.agree hslot hrV rfl (fun u hu => ?_) _⟩
    simp only [definitions_cons, definitions_append, definitions_nil, Option.toList_some, Option.toList_none,
      List.nil_append, List.append_nil, List.mem_append, List.mem_singleton, not_or] at hu
    exact ⟨hu.2.2.2.2, (hend.frame u hu.2.2.1).trans (hframe u hu.1 hu.2.1)⟩

theorem SkipsOn.holds_eq (h : SkipsOn op construct skip) (w : Int32) :
    skip.holds w 0 = Host.decides op w := by
  cases h with
  | and => rfl
  | or => rw [Cond.holds, Host.decides, Bool.eq_iff_iff, bne_iff_ne, decide_eq_true_iff]

theorem simulates_shortCircuit (hskip : SkipsOn op construct skip) (hP : Labeled P)
    (hfirst : Simulates host P K fuel V is (some x) first)
    (hsecond : Simulates host P K fuel V js (some y) second) (hx : x ≠ zero)
    (hslot : slot ∉ K)
    (hnodup : ([slot] ++ (definitions is ++ ([zero] ++ (definitions js ++ [r.value])))).Nodup)
    (hfresh : ¬ V slot ∧ ¬ V zero ∧ ¬ V r.value) :
    SimulatesNode host P K fuel V
      (word .alloc [] slot :: (is ++ (act (.sw 0) [slot, x] :: word (.li 0) [] zero ::
      act (.branch skip (construct.label "after" number)) [x, zero] ::
        act (.label (construct.label "rhs" number)) [] ::
      (js ++ [act (.sw 0) [slot, y], act (.label (construct.label "after" number)) [],
        word (.lw 0) [slot] r.value]))))
      ⟨id, .shortCircuit op, [], some r⟩
        (host.select fuel ⟨id, .shortCircuit op, [], some r⟩ first second) := by
  intro k s s' hsits hagree
  obtain ⟨hslotV, hzeroV, hrV⟩ := hfresh
  simp only [List.cons_append, List.nil_append, List.nodup_cons, List.mem_cons, List.mem_append, not_or]
    at hnodup
  obtain ⟨⟨hslotIs, hne, hslotJs, -⟩, -⟩ := hnodup
  let z := s'.define (some slot) (some (.cell slot))
  have hz : Agree K V s z := hagree.define hslotV _
  have hslotZ : z.values slot = .cell slot := by simp [z]
  obtain ⟨hleft, hstore⟩ := hsits.tail.append
  obtain ⟨hright, hmerge⟩ := hstore.tail.tail.tail.tail.append
  rw [Host.select_shortCircuit]
  refine Follows.cast (?_ : k + 1 + is.length + 1 + 1 + 1 + 1 + js.length + 1 + 1 + 1 = _) ?_
  · simp only [List.length_cons, List.length_append, List.length_nil]
    omega
  refine Follows.begin (hsits.step (run_alloc ..)) ((hfirst _ s z hleft hz).andThen fun value t t' hran => ?_)
  obtain ⟨hend, hvalue⟩ := hran
  obtain rfl := hvalue x rfl
  have hkept : t'.values slot = .cell slot := (hend.frame slot hslotIs).trans hslotZ
  let stored : State := ⟨t'.values, t'.world.assign slot (host.word (t'.values x))⟩
  let b := stored.define (some zero) (some (.word 0))
  have hstored : Agree K V t stored :=
    hend.agree.change (fun _ _ => rfl) (hend.agree.world.assign_hidden hslot _)
  have hb : Agree K V t b := hstored.define hzeroV _
  have hslotB : b.values slot = .cell slot := (State.values_define_of_ne hne).trans hkept
  have hframe (u : ValueId) (hslot : u ≠ slot) (hzero : u ≠ zero) (hu : u ∉ definitions is) :
      b.values u = s'.values u :=
    (State.values_define_of_ne hzero).trans ((hend.frame u hu).trans (State.values_define_of_ne hslot))
  have hstart := hstore.storeSlot host hkept
  by_cases h : (some (Content.word (host.word (t'.values x)))).any fun c => Host.decides op (host.word c)
  · rw [if_pos h]
    have htested := hstore.tail.tested (s := stored) hx ((hskip.holds_eq _).trans h)
      (hP.position_eq hmerge.tail)
    have hload := hmerge.tail.loadSlot host (t := t'.define (some zero) (some (.word 0)))
      (w := host.word (t'.values x)) hslotB
    refine ⟨_, _, hstart.trans (htested.trans hload), After.merge (hend.agree.define hzeroV _) hslot hrV rfl
      (fun u hu => ?_) _⟩
    simp only [definitions_cons, definitions_append, definitions_nil, Option.toList_some, Option.toList_none,
      List.nil_append, List.append_nil, List.mem_append, List.mem_singleton, not_or] at hu
    exact ⟨hu.2.2.2.2, hframe u hu.1 hu.2.2.1 hu.2.1⟩
  · rw [if_neg h]
    have htested := hstore.tail.tested_not (s := stored) hx
      ((hskip.holds_eq _).trans (Bool.eq_false_iff.mpr h))
    refine Follows.begin (hstart.trans htested) ((hsecond _ t b hright hb).finish fun value u u' hran => ?_)
    obtain ⟨hend, hvalue⟩ := hran
    obtain rfl := hvalue y rfl
    have hkept : u'.values slot = .cell slot := (hend.frame slot hslotJs).trans hslotB
    refine ⟨_, _, (hmerge.storeSlot host hkept).trans (hmerge.tail.loadSlot host hkept),
      After.merge hend.agree hslot hrV rfl (fun v hv => ?_) _⟩
    simp only [definitions_cons, definitions_append, definitions_nil, Option.toList_some, Option.toList_none,
      List.nil_append, List.append_nil, List.mem_append, List.mem_singleton, not_or] at hv
    exact ⟨hv.2.2.2.2, (hend.frame v hv.2.2.2.1).trans (hframe v hv.1 hv.2.2.1 hv.2.1)⟩

theorem ForkFlat.simulates {n : Node} {x y : Option ValueId} (h : ForkFlat number n is x js y ks)
    (hP : Labeled P) (hfirst : Simulates host P K fuel V is x first)
    (hsecond : Simulates host P K fuel V js y second) (hnodup : (definitions ks).Nodup)
    (hfresh : ∀ v ∈ definitions ks, ¬ V v) (hoperands : ∀ u ∈ n.operands, V u)
    (hx : ∀ u ∈ x, u ∈ definitions is ∨ V u)
    (hkept : ∀ v ∈ K, v ∈ definitions ks → v ∈ n.results ∨ v ∈ definitions is ∨ v ∈ definitions js) :
    SimulatesNode host P K fuel V ks n (host.select fuel n first second) := by
  cases h with
  | @shortCircuit id op construct skip r is js x y hskip slot zero =>
    have hx := hx x rfl
    have hslot := hkept slot
    have hfresh : ¬ V slot ∧ ¬ V zero ∧ ¬ V r.value :=
      ⟨hfresh slot (by simp), hfresh zero (by simp), hfresh r.value (by simp)⟩
    simp only [definitions_cons, definitions_append, definitions_nil, Option.toList_some, Option.toList_none,
      List.nil_append, List.append_nil, Node.results, Option.map_some] at hnodup hslot
    refine simulates_shortCircuit hskip hP hfirst hsecond ?_ ?_ hnodup hfresh <;>
      simp only [List.nodup_append, List.mem_append, List.cons_append, List.nil_append, List.nodup_cons,
        List.mem_cons] at hnodup hslot <;>
      grind
  | @ifExpr id r cond is js x y slot zero =>
    have hslot := hkept slot
    have hfresh : ¬ V slot ∧ ¬ V zero ∧ ¬ V r.value :=
      ⟨hfresh slot (by simp), hfresh zero (by simp), hfresh r.value (by simp)⟩
    simp only [definitions_cons, definitions_append, definitions_nil, Option.toList_some, Option.toList_none,
      List.nil_append, List.append_nil, Node.results, Option.map_some] at hnodup hslot
    refine simulates_ifExpr hP hfirst hsecond (hoperands cond (by simp)) ?_ hnodup hfresh
    simp only [List.nodup_append, List.mem_append, List.cons_append, List.nil_append, List.nodup_cons,
      List.mem_cons] at hnodup hslot
    grind
  | @ifElse id cond is js zero =>
    exact simulates_ifElse hP hfirst hsecond (hoperands cond (by simp)) (hfresh zero (by simp))
  | @whileLoop id is js x zero =>
    have hzero := hfresh zero (by simp)
    refine simulates_whileLoop hP hfirst hsecond ?_ hzero
    rintro rfl
    obtain hx | hx := hx x rfl
    · simp only [definitions_cons, definitions_append, Option.toList_some, Option.toList_none,
        List.nil_append] at hnodup
      exact (List.nodup_append.mp hnodup).2.2 x hx x (by simp) rfl
    · exact hzero hx

end Forks

end Choco.IR
