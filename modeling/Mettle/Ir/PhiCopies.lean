import Mettle.Ir.Frame
import Mettle.Ir.LeaveSsa
import Mettle.Lib.Order

/-!
# Copies of phi operands as a parallel assignment

A copy whose destination no pending copy reads may be emitted: what the others read is still there. So
the rounds are right as long as they make progress, which they do when no copies form a cycle. On a
cycle the loop saves a destination and overwrites the destination of its reader at once, which another
pending copy still reads: that copy gets the saved value in place of the overwritten one.
-/

open List Function
open Option hiding or_self

namespace Mettle.Ir

open Mettle.Lib

variable {W : Type} {H : Host W} {fn : Function} {s s' : State W}

theorem Operand.var_of_same {a b : Operand} (h : a.same b = true) : a.var = b.var := by
  unfold Operand.same at h
  rw [decide_eq_true_eq] at h
  unfold Operand.var
  rw [h.1, h.2.2.2.2]

/-- An operand that names a variable is a temporary or a symbol. -/
theorem Operand.kind_of_var {o : Operand} {x : String} (h : o.var = some x) :
    (o.kind = .temp ∨ o.kind = .symbol) ∧ o.name = some x := by
  unfold Operand.var at h
  split at h
  · rename_i hk
    exact ⟨hk, h⟩
  · cases h

namespace PhiCopy

variable {c d k : PhiCopy} {pending : List PhiCopy}

/-- The variable a copy writes. -/
def target (c : PhiCopy) : Option String := c.phi.dest.var

/-- The copies of one edge in order: each names a variable, no two the same, none its own and none a
saved one; what an operand names is seen by the comparison of operands. -/
structure WellFormed (pending : List PhiCopy) : Prop where
  named : ∀ c ∈ pending, ∃ x, c.target = some x
  distinct : (pending.map target).Nodup
  moves : ∀ c ∈ pending, c.reads c.phi.dest = false
  operand : ∀ c ∈ pending, c.incoming.kind ≠ .label ∧
    (c.incoming.kind = .temp ∨ c.incoming.kind = .symbol → c.incoming.name.isSome = true)
  seen : ∀ c ∈ pending, ∀ d ∈ pending, c.incoming.var = d.target → c.reads d.phi.dest = true
  fresh : ∀ c ∈ pending, ∀ n, c.target ≠ some (swapName n)

variable {left emitted readers : List PhiCopy} {phi i : Inst} {dest lhs : Operand} {x y : String} {out : List Inst}

/-- Some of the copies are well formed when all are. -/
theorem WellFormed.mono (h : WellFormed pending) (hsub : left ⊆ pending) (hdistinct : (left.map target).Nodup) :
    WellFormed left where
  named := fun c hc => h.named c (hsub hc)
  distinct := hdistinct
  moves := fun c hc => h.moves c (hsub hc)
  operand := fun c hc => h.operand c (hsub hc)
  seen := fun c hc d hd => h.seen c (hsub hc) d (hsub hd)
  fresh := fun c hc => h.fresh c (hsub hc)

theorem WellFormed.sublist (h : WellFormed pending) (hsub : left.Sublist pending) : WellFormed left :=
  h.mono hsub.subset (h.distinct.sublist (hsub.map _))

/-- There is one copy for each target. -/
theorem WellFormed.eq_of_target (h : WellFormed pending) (hc : c ∈ pending) (hd : d ∈ pending)
    (heq : c.target = d.target) : c = d :=
  inj_on_of_nodup_map h.distinct hc hd heq

/-- A copy that reads a destination has its target as the source. -/
theorem reads_target (h : c.reads d.phi.dest = true) : c.incoming.var = d.target :=
  Operand.var_of_same h

/-! ## One copy -/

/-- A copy to a variable of the frame. -/
theorem exec_assign {var : Var} (hx : dest.var = some x) (hvar : s.env x = some var) :
    s.exec H fn (assign phi dest lhs) = (s.assigned H (assign phi dest lhs)).map fun v =>
      { s with env := Function.update s.env x (some (var.write H.floats v)) } := by
  obtain ⟨hkind, hname⟩ := Operand.kind_of_var hx
  have hstore : ∀ v, s.storeDest H dest v =
      some { s with env := Function.update s.env x (some (var.write H.floats v)) } := by
    intro v
    unfold State.storeDest
    rcases hkind with hk | hk <;> simp [hk, hname, hvar]
  unfold State.exec
  change ((s.assigned H _).map fun v => ([v], s.world)).bind _ = _
  cases s.assigned H (assign phi dest lhs) with
  | none => rfl
  | some v =>
    change (State.storeDest H s dest v).bind _ = _
    rw [hstore]
    rfl

/-- What a copy assigns depends on its operand and on the flags of its destination. -/
theorem assigned_congr (hworld : s'.world = s.world) (hlhs : ∀ x, lhs.var = some x → s'.env x = s.env x)
    (hdest : ∀ x, dest.var = some x → s'.env x = s.env x) :
    s'.assigned H (assign phi dest lhs) = s.assigned H (assign phi dest lhs) := by
  have hfetch : s'.fetch H lhs = s.fetch H lhs := by
    refine State.fetch_same fun x hx => ⟨hlhs x hx, fun _ => ?_⟩
    rw [hworld]
    exact Host.Keeps.refl H _ x
  unfold State.assigned
  simp only [assign]
  rw [hfetch]
  by_cases hsym : dest.isSymbol = true
  · have hk := hsym
    unfold Operand.isSymbol at hk
    rw [decide_eq_true_eq, isSome_iff_exists] at hk
    obtain ⟨hk, x, hname⟩ := hk
    have henv := hdest x (by simp [Operand.var, hk, hname])
    simp only [hname, bind_some, henv]
  · simp only [hsym, Bool.false_eq_true, false_and, and_false, if_false]

/-- What a copy assigns is there: its operand is a literal or a variable of the frame. -/
theorem exists_assigned (hlabel : lhs.kind ≠ .label) (hvar : ∀ x, lhs.var = some x → ∃ var, s.env x = some var) :
    ∃ v, s.assigned H (assign phi dest lhs) = some v := by
  have hfetch : ∃ v, s.fetch H lhs = some v := by
    unfold State.fetch
    cases hk : lhs.kind with
    | label => exact absurd hk hlabel
    | temp | symbol =>
      cases hname : lhs.name with
      | none => exact ⟨_, rfl⟩
      | some x =>
        obtain ⟨var, henv⟩ := hvar x (by simp [Operand.var, hk, hname])
        simp [henv]
    | none | int | float | string => exact ⟨_, rfl⟩
  unfold State.assigned
  split
  · exact ⟨_, rfl⟩
  · exact hfetch

/-! ## One round -/

/-- The copies of `emitted` are done: each destination got what its operand had in `s`, and nothing else
changed. -/
structure Done (H : Host W) (s s' : State W) (emitted : List PhiCopy) : Prop where
  world : s'.world = s.world
  assigned : ∀ c ∈ emitted, ∀ x, c.target = some x →
    ∃ v, s.assigned H c.copy = some v ∧ s'.env x = (s.env x).map fun var => var.write H.floats v
  kept : ∀ x, (∀ c ∈ emitted, c.target ≠ some x) → s'.env x = s.env x

/-- The variables of the copies are in the frame. -/
def InFrame (s : State W) (pending : List PhiCopy) : Prop :=
  ∀ c ∈ pending, ∀ x, c.target = some x ∨ c.incoming.var = some x → ∃ var, s.env x = some var

/-- The copies that are done have kept the frame of the others. -/
theorem Done.inFrame (h : Done H s s' emitted) (hs : InFrame s left) : InFrame s' left := by
  intro c hc x hx
  obtain ⟨var, hvar⟩ := hs c hc x hx
  by_cases hmem : ∀ c ∈ emitted, c.target ≠ some x
  · exact ⟨var, by rw [h.kept x hmem, hvar]⟩
  · push Not at hmem
    obtain ⟨e, he, hex⟩ := hmem
    obtain ⟨v, -, henv⟩ := h.assigned e he x hex
    rw [hvar] at henv
    exact ⟨_, henv⟩

/-- Copies that read and write other variables assign what they would have. -/
theorem Done.assigned_left (h : Done H s s' emitted)
    (hreads : ∀ e ∈ emitted, c.incoming.var ≠ e.target ∨ e.target = none)
    (hwrites : ∀ e ∈ emitted, c.target ≠ e.target ∨ e.target = none) :
    s'.assigned H c.copy = s.assigned H c.copy := by
  refine assigned_congr h.world (fun x hx => h.kept x fun e he heq => ?_) fun x hx => h.kept x fun e he heq => ?_
  · rcases hreads e he with hne | hnone
    · exact hne (hx.trans heq.symm)
    · rw [hnone] at heq
      cases heq
  · rcases hwrites e he with hne | hnone
    · exact hne (hx.trans heq.symm)
    · rw [hnone] at heq
      cases heq

/-- Copies none of which reads a destination written before it. -/
theorem execAll_copies (hwf : WellFormed pending)
    (hlater : pending.Pairwise fun c d => d.reads c.phi.dest = false) (hs : InFrame s pending) :
    ∃ s', s.execAll H fn (pending.map copy) = some s' ∧ Done H s s' pending := by
  induction pending generalizing s with
  | nil => exact ⟨s, rfl, rfl, by simp, fun x _ => rfl⟩
  | cons c rest ih =>
    obtain ⟨x, hx⟩ := hwf.named c mem_cons_self
    obtain ⟨var, hvar⟩ := hs c (.head _) x (Or.inl hx)
    obtain ⟨v, hv⟩ : ∃ v, s.assigned H c.copy = some v :=
      exists_assigned (hwf.operand c (.head _)).1 fun y hy => hs c (.head _) y (Or.inr hy)
    rw [pairwise_cons] at hlater
    have hrest := hwf.sublist (sublist_cons_self c rest)
    have hnotmem : ∀ d ∈ rest, d.target ≠ some x := by
      intro d hd heq
      have := hwf.distinct
      rw [map_cons, nodup_cons, hx] at this
      exact this.1 (List.mem_map.mpr ⟨d, hd, heq⟩)
    -- the state after the first copy
    have hfirst : Done H s { s with env := Function.update s.env x (some (var.write H.floats v)) } [c] := by
      refine ⟨rfl, fun d hd y hy => ?_, fun y hy => ?_⟩
      · obtain rfl := mem_singleton.mp hd
        obtain rfl := some.inj (hx.symm.trans hy)
        exact ⟨v, hv, by simp [hvar]⟩
      · refine update_of_ne ?_ _ _
        rintro rfl
        exact hy c (.head _) hx
    obtain ⟨s', hrun, hdone⟩ := ih hrest hlater.2 (hfirst.inFrame fun d hd => hs d (.tail _ hd))
    refine ⟨s', ?_, hdone.world.trans hfirst.world, fun d hd y hy => ?_, fun y hy => ?_⟩
    · have hexec : s.exec H fn c.copy = (s.assigned H c.copy).map fun v =>
          { s with env := Function.update s.env x (some (var.write H.floats v)) } := exec_assign hx hvar
      rw [map_cons, State.execAll, hexec, hv]
      exact hrun
    · rcases mem_cons.mp hd with rfl | hmem
      · obtain rfl := some.inj (hx.symm.trans hy)
        refine ⟨v, hv, ?_⟩
        rw [hdone.kept x hnotmem]
        simp [hvar]
      · obtain ⟨u, hu, henv⟩ := hdone.assigned d hmem y hy
        refine ⟨u, ?_, ?_⟩
        · rw [← hu]
          refine (hfirst.assigned_left (fun e he => Or.inl ?_) fun e he => Or.inl ?_).symm
          · obtain rfl := mem_singleton.mp he
            intro heq
            have := hwf.seen d hd e (.head _) heq
            rw [hlater.1 d hmem] at this
            cases this
          · obtain rfl := mem_singleton.mp he
            rw [hx]
            exact hnotmem d hmem
        · rw [henv, hfirst.kept y fun e he => ?_]
          obtain rfl := mem_singleton.mp he
          intro heq
          exact hnotmem d hmem (hy.trans (heq.symm.trans hx))
    · rw [hdone.kept y fun d hd => hy d (.tail _ hd)]
      exact hfirst.kept y fun d hd => hy d (mem_singleton.mp hd ▸ (.head _))

/-- A round takes copies whose destination nothing pending reads at that moment. -/
theorem round_spec (todo kept : List PhiCopy) :
    ∃ taken left, round kept todo = (taken.map copy, kept ++ left) ∧ taken.Sublist todo ∧
      left.Sublist todo ∧ (taken ++ left).Perm todo ∧
      (taken.Pairwise fun c d => d.reads c.phi.dest = false) ∧
      (∀ c ∈ taken, ∀ d ∈ kept ++ left, d.reads c.phi.dest = false) ∧
      (taken = [] → ∀ c ∈ todo, ∃ d ∈ kept ++ todo, d.reads c.phi.dest = true) := by
  -- on the copies of the round
  induction todo generalizing kept with
  | nil => exact ⟨[], [], by simp [round], by simp, by simp, by simp, by simp, by simp, by simp⟩
  | cons c rest ih =>
    -- blocked: another copy still reads the destination, so this one waits
    by_cases hblocked : (kept ++ rest).any (fun d => d.reads c.phi.dest) = true
    · obtain ⟨taken, left, hround, htaken, hleft, hperm, hlater, hnone, hall⟩ := ih (kept ++ [c])
      refine ⟨taken, c :: left, ?_, htaken.cons c, hleft.cons_cons c, ?_, hlater, ?_, ?_⟩
      · rw [round, if_pos hblocked, hround]
        simp
      · exact perm_middle.trans (hperm.cons c)
      · intro e he d hd
        exact hnone e he d (by simpa using hd)
      · intro hempty e he
        rcases mem_cons.mp he with rfl | he
        · obtain ⟨d, hd, hreads⟩ := List.any_eq_true.mp hblocked
          refine ⟨d, ?_, hreads⟩
          rcases mem_append.mp hd with hd | hd
          · exact mem_append_left _ hd
          · exact mem_append_right _ (.tail _ hd)
        · obtain ⟨d, hd, hreads⟩ := hall hempty e he
          exact ⟨d, by simpa using hd, hreads⟩
    · obtain ⟨taken, left, hround, htaken, hleft, hperm, hlater, hnone, hall⟩ := ih kept
      have hfree : ∀ d ∈ kept ++ rest, d.reads c.phi.dest = false := by
        intro d hd
        by_contra hreads
        rw [Bool.not_eq_false] at hreads
        exact hblocked (List.any_eq_true.mpr ⟨d, hd, hreads⟩)
      refine ⟨c :: taken, left, ?_, htaken.cons_cons c, hleft.cons c, hperm.cons c, ?_, ?_, by simp⟩
      · rw [round, if_neg hblocked, hround]
        rfl
      · rw [pairwise_cons]
        exact ⟨fun d hd => hfree d (mem_append_right _ (htaken.subset hd)), hlater⟩
      · intro e he d hd
        rcases mem_cons.mp he with rfl | he
        · rcases mem_append.mp hd with hd | hd
          · exact hfree d (mem_append_left _ hd)
          · exact hfree d (mem_append_right _ (hleft.subset hd))
        · exact hnone e he d hd

/-- The order of the copies does not matter. -/
theorem WellFormed.perm {order : List PhiCopy} (h : WellFormed pending) (hperm : order.Perm pending) :
    WellFormed order :=
  h.mono hperm.subset (((hperm.map _).nodup_iff).mpr h.distinct)

/-- One copy reads the destination of another. -/
def Reads (c d : PhiCopy) : Prop := c.reads d.phi.dest = true

/-- The loop on the pending copies: a round that takes some of them, or, when each destination is still read, the
destination of one saved for its readers. -/
inductive Emits : List PhiCopy → List Inst → Prop
  | done : Emits [] []
  | round {pending taken left : List PhiCopy} {rest : List Inst} (htaken : taken.Sublist pending)
      (hleft : left.Sublist pending) (hperm : (taken ++ left).Perm pending)
      (hlater : taken.Pairwise fun c d => d.reads c.phi.dest = false)
      (hnone : ∀ c ∈ taken, ∀ d ∈ left, d.reads c.phi.dest = false) (hrest : Emits left rest) :
      Emits pending (taken.map copy ++ rest)
  | swap {pick : PhiCopy} {pending : List PhiCopy} {rest : List Inst} (counter : ℕ)
      (hstuck : ∀ c ∈ pick :: pending, ∃ d ∈ pick :: pending, d.reads c.phi.dest = true)
      (hrest : Emits ((pick :: pending).filter fun c => !c.reads pick.phi.dest) rest) :
      Emits (pick :: pending) (assign pick.phi (.ofSymbol (swapName counter)) pick.phi.dest ::
        ((pick :: pending).filter fun c => c.reads pick.phi.dest).map
          (fun c => assign c.phi c.phi.dest (.ofSymbol (swapName counter))) ++ rest)

/-- What is emitted is an order of the copies, with a saved value for each cycle. -/
theorem emits_of_sequentialize {fuel counter : ℕ} {saved : List Inst}
    (h : sequentialize fuel counter pending = some (out, saved)) : Emits pending out := by
  induction fuel generalizing pending counter out saved with
  | zero =>
    rcases pending with _ | ⟨pick, pending⟩
    · cases h
      exact .done
    · cases h
  | succ fuel ih =>
    rcases pending with _ | ⟨pick, pending⟩
    · cases h
      exact .done
    obtain ⟨taken, left, hround, htaken, hleft, hperm, hlater, hnone, hall⟩ := round_spec (pick :: pending) []
    rw [nil_append] at hround hnone hall
    rw [sequentialize, hround] at h
    simp only at h
    split at h
    · obtain ⟨⟨rest, saved'⟩, hrest, heq⟩ := map_eq_some_iff.mp h
      cases heq
      exact .round htaken hleft hperm hlater hnone (ih hrest)
    · rename_i hempty
      obtain ⟨⟨rest, saved'⟩, hrest, heq⟩ := map_eq_some_iff.mp h
      cases heq
      exact .swap counter (hall (by simpa using hempty)) (ih hrest)

/-- Without a cycle nothing is saved, and every copy comes after those that read its destination. -/
theorem Emits.acyclic (h : Emits pending out) (hacyclic : Acyclic pending Reads) :
    ∃ order : List PhiCopy, order.Perm pending ∧ (order.Pairwise fun c d => d.reads c.phi.dest = false) ∧
      out = order.map copy := by
  induction h with
  | done => exact ⟨[], Perm.refl _, Pairwise.nil, rfl⟩
  | @round _ taken _ _ _ hleft hperm hlater hnone _ ih =>
    obtain ⟨order, horder, hordered, rfl⟩ := ih (hacyclic.mono fun c hc => hleft.subset hc)
    refine ⟨taken ++ order, (Perm.append_left taken horder).trans hperm, ?_, (map_append ..).symm⟩
    rw [pairwise_append]
    exact ⟨hlater, hordered, fun c hc d hd => hnone c hc d (horder.subset hd)⟩
  | swap _ hstuck _ _ =>
    obtain ⟨c, hc, hfirst⟩ := hacyclic.exists_first (by simp)
    obtain ⟨d, hd, hreads⟩ := hstuck c hc
    exact absurd hreads (hfirst d hd)

/-- The loop ends. -/
theorem sequentialize_isSome (fuel counter : ℕ) (pending : List PhiCopy)
    (hfuel : pending.length ≤ fuel) (hmoves : ∀ c ∈ pending, c.reads c.phi.dest = false) :
    ∃ out saved, sequentialize fuel counter pending = some (out, saved) := by
  induction fuel generalizing pending counter with
  | zero =>
    obtain rfl : pending = [] := length_eq_zero_iff.mp (by omega)
    exact ⟨[], [], rfl⟩
  | succ fuel ih =>
    rcases pending with _ | ⟨pick, pending⟩
    · exact ⟨[], [], rfl⟩
    obtain ⟨taken, left, hround, -, hleft, hperm, -, -, hall⟩ := round_spec (pick :: pending) []
    rw [nil_append] at hround hall
    rw [length_cons] at hfuel
    rw [sequentialize, hround]
    simp only
    by_cases hprogress : taken.map copy ≠ []
    · rw [if_pos hprogress]
      have hlength : taken.length + left.length = pending.length + 1 := by
        rw [← length_append, hperm.length_eq, length_cons]
      have hpos : 0 < taken.length := length_pos_of_ne_nil (by simpa using hprogress)
      obtain ⟨out, saved, hrest⟩ := ih counter left (by omega) fun c hc => hmoves c (hleft.subset hc)
      exact ⟨_, _, by rw [hrest]; rfl⟩
    · -- a reader of the saved destination is copied at once
      rw [if_neg hprogress]
      have hempty : taken = [] := by simpa using hprogress
      obtain ⟨d, hd, hreads⟩ := hall hempty pick mem_cons_self
      have hlt : ((pick :: pending).filter fun c => !c.reads pick.phi.dest).length < (pick :: pending).length :=
        length_filter_lt_length_iff_exists.mpr ⟨d, hd, by simp [hreads]⟩
      rw [length_cons] at hlt
      obtain ⟨out, saved, hrest⟩ := ih (counter + 1)
        ((pick :: pending).filter fun c => !c.reads pick.phi.dest) (by omega) fun c hc => hmoves c (mem_of_mem_filter hc)
      exact ⟨_, _, by rw [hrest]; rfl⟩

/-! ## Cycles -/

/-- Every name is an eight-byte integer variable of the frame. -/
def Plain (s : State W) : Prop := ∀ x, ∃ v, s.env x = some { value := v, size := 8 }

/-- The value of a variable. -/
def valueOf (s : State W) (x : String) : Value := ((s.env x).map fun var => var.value).getD {}

/-- In a plain state every copy is in its frame. -/
theorem Plain.inFrame (h : Plain s) (pending : List PhiCopy) : InFrame s pending := by
  intro c _ x _
  obtain ⟨v, hv⟩ := h x
  exact ⟨_, hv⟩

/-- A copy assigns the value of its source. -/
theorem Plain.assigned (h : Plain s) (hy : lhs.var = some y) : s.assigned H (assign phi dest lhs) = some (valueOf s y) := by
  obtain ⟨hkind, hname⟩ := Operand.kind_of_var hy
  obtain ⟨v, hv⟩ := h y
  unfold State.assigned
  unfold State.fetch
  rcases hkind with hk | hk <;> simp [assign, hk, hname, hv, valueOf]

/-- An instruction the loop emits. -/
def IsCopy (i : Inst) (x : String) : Prop :=
  ∃ phi dest lhs, i = assign phi dest lhs ∧ dest.var = some x ∧ lhs.kind ≠ .label

/-- Its execution sets the target to that. -/
theorem Plain.exec (H : Host W) (fn : Function) (h : Plain s) (hi : IsCopy i x) : ∃ v, s.assigned H i = some v ∧
      s.exec H fn i = some { s with env := Function.update s.env x (some { value := v, size := 8 }) } := by
  obtain ⟨phi, dest, lhs, rfl, hx, hlabel⟩ := hi
  obtain ⟨old, hold⟩ := h x
  obtain ⟨v, hv⟩ : ∃ v, s.assigned H (assign phi dest lhs) = some v := by
    refine exists_assigned hlabel fun y _ => ?_
    obtain ⟨u, hu⟩ := h y
    exact ⟨_, hu⟩
  refine ⟨v, hv, ?_⟩
  rw [exec_assign hx hold, hv, map_some]
  have hwrite : Var.write H.floats { value := old, size := 8 } v = { value := v, size := 8 } := by
    simp [Var.write]
  rw [hwrite]

/-- A plain state stays plain. -/
theorem Plain.update (h : Plain s) (x : String) (v : Value) :
    Plain { s with env := Function.update s.env x (some { value := v, size := 8 }) } := by
  intro y
  by_cases hyx : y = x
  · exact ⟨v, by rw [hyx]; exact update_self _ _ _⟩
  · obtain ⟨u, hu⟩ := h y
    exact ⟨u, by rw [← hu]; exact update_of_ne hyx _ _⟩

/-- The values after a variable was set. -/
theorem valueOf_update (s : State W) (x y : String) (v : Value) :
    valueOf { s with env := Function.update s.env x (some { value := v, size := 8 }) } y =
      if y = x then v else valueOf s y := by
  unfold valueOf
  simp only [update_apply]
  split <;> rfl

/-- Copies run, and change only the variables they name. -/
theorem Plain.execAll (h : Plain s) {insts : List Inst} (hcopies : ∀ i ∈ insts, ∃ x, IsCopy i x) :
    ∃ s', s.execAll H fn insts = some s' ∧ Plain s' ∧
      ∀ x, (∀ i ∈ insts, i.dest.var ≠ some x) → s'.env x = s.env x := by
  induction insts generalizing s with
  | nil => exact ⟨s, rfl, h, fun _ _ => rfl⟩
  | cons i rest ih =>
    obtain ⟨x, hi⟩ := hcopies i mem_cons_self
    obtain ⟨v, -, hexec⟩ := h.exec H fn hi
    obtain ⟨s', hrun, hplain, hkept⟩ := ih (h.update x v) fun j hj => hcopies j (.tail _ hj)
    refine ⟨s', by rw [State.execAll, hexec]; exact hrun, hplain, fun y hy => ?_⟩
    rw [hkept y fun j hj => hy j (.tail _ hj)]
    refine update_of_ne ?_ _ _
    rintro rfl
    obtain ⟨phi, dest, lhs, rfl, hx, -⟩ := hi
    exact hy _ (.head _) hx

/-- A round from a plain state. -/
theorem Plain.round (H : Host W) (fn : Function) (h : Plain s) (hwf : WellFormed pending)
    (hlater : pending.Pairwise fun c d => d.reads c.phi.dest = false) :
    ∃ s', s.execAll H fn (pending.map copy) = some s' ∧ Plain s' ∧ Done H s s' pending := by
  obtain ⟨s', hrun, hdone⟩ := execAll_copies (H := H) (s := s) hwf hlater (h.inFrame pending)
  refine ⟨s', hrun, fun x => ?_, hdone⟩
  by_cases hmem : ∀ c ∈ pending, c.target ≠ some x
  · rw [hdone.kept x hmem]
    exact h x
  · push Not at hmem
    obtain ⟨c, hc, hx⟩ := hmem
    obtain ⟨v, -, henv⟩ := hdone.assigned c hc x hx
    obtain ⟨u, hu⟩ := h x
    exact ⟨v, by rw [henv, hu]; simp [Var.write]⟩

/-- What the loop emits: copies to the destinations and to saved variables. -/
theorem Emits.mem (h : Emits pending out) (hwf : WellFormed pending) (hi : i ∈ out) :
    ∃ x, IsCopy i x ∧ ((∃ c ∈ pending, c.target = some x) ∨ ∃ n, x = swapName n) := by
  induction h with
  | done => cases hi
  | round htaken hleft _ _ _ _ ih =>
    rcases mem_append.mp hi with hi | hi
    · obtain ⟨c, hc, rfl⟩ := List.mem_map.mp hi
      have hmem := htaken.subset hc
      obtain ⟨x, hx⟩ := hwf.named c hmem
      exact ⟨x, ⟨c.phi, c.phi.dest, c.incoming, rfl, hx, (hwf.operand c hmem).1⟩, Or.inl ⟨c, hmem, hx⟩⟩
    · obtain ⟨x, hcopy, hx⟩ := ih (hwf.sublist hleft) hi
      refine ⟨x, hcopy, hx.imp_left ?_⟩
      rintro ⟨c, hc, hcx⟩
      exact ⟨c, hleft.subset hc, hcx⟩
  | @swap pick _ _ counter _ _ ih =>
    rcases mem_cons.mp hi with rfl | hi
    · obtain ⟨x, hx⟩ := hwf.named pick mem_cons_self
      refine ⟨swapName counter, ⟨pick.phi, _, pick.phi.dest, rfl, rfl, ?_⟩, Or.inr ⟨counter, rfl⟩⟩
      rcases (Operand.kind_of_var hx).1 with hk | hk <;> rw [hk] <;> decide
    · rcases mem_append.mp hi with hi | hi
      · obtain ⟨c, hc, rfl⟩ := List.mem_map.mp hi
        have hmem := mem_of_mem_filter hc
        obtain ⟨x, hx⟩ := hwf.named c hmem
        exact ⟨x, ⟨c.phi, c.phi.dest, _, rfl, hx, by simp [Operand.ofSymbol]⟩, Or.inl ⟨c, hmem, hx⟩⟩
      · obtain ⟨x, hcopy, hx⟩ := ih (hwf.sublist filter_sublist) hi
        refine ⟨x, hcopy, hx.imp_left ?_⟩
        rintro ⟨c, hc, hcx⟩
        exact ⟨c, mem_of_mem_filter hc, hcx⟩

/-- The readers of a saved destination get the saved value. -/
theorem Plain.saved (H : Host W) (fn : Function) (h : Plain s) (hwf : WellFormed readers) (n : ℕ) :
    ∃ s', s.execAll H fn (readers.map fun c => assign c.phi c.phi.dest (.ofSymbol (swapName n))) = some s' ∧
      Plain s' ∧ (∀ c ∈ readers, ∀ x, c.target = some x → valueOf s' x = valueOf s (swapName n)) ∧
      ∀ x, (∀ c ∈ readers, c.target ≠ some x) → s'.env x = s.env x := by
  -- on the readers
  induction readers generalizing s with
  | nil => exact ⟨s, rfl, h, by simp, fun _ _ => rfl⟩
  | cons c rest ih =>
    obtain ⟨x, hx⟩ := hwf.named c mem_cons_self
    have hcopy : IsCopy (assign c.phi c.phi.dest (.ofSymbol (swapName n))) x :=
      ⟨c.phi, c.phi.dest, _, rfl, hx, by simp [Operand.ofSymbol]⟩
    obtain ⟨v, hv, hexec⟩ := h.exec H fn hcopy
    obtain rfl : valueOf s (swapName n) = v := by
      rw [h.assigned (y := swapName n) rfl] at hv
      exact some.inj hv
    obtain ⟨s', hrun, hplain, hval, hkept⟩ := ih (h.update x (valueOf s (swapName n)))
      (hwf.sublist (sublist_cons_self c rest))
    have hne : swapName n ≠ x := by
      rintro rfl
      exact hwf.fresh c (.head _) n hx
    rw [valueOf_update, if_neg hne] at hval
    refine ⟨s', ?_, hplain, fun d hd y hy => ?_, fun y hy => ?_⟩
    · rw [map_cons, State.execAll, hexec]
      exact hrun
    · rcases mem_cons.mp hd with rfl | hmem
      · obtain rfl := some.inj (hx.symm.trans hy)
        have hnot : ∀ e ∈ rest, e.target ≠ some x := by
          intro e he heq
          have := hwf.distinct
          rw [map_cons, nodup_cons, hx] at this
          exact this.1 (List.mem_map.mpr ⟨e, he, heq⟩)
        have hlast : valueOf s' x = valueOf { s with
            env := Function.update s.env x (some { value := valueOf s (swapName n), size := 8 }) } x := by
          unfold valueOf
          rw [hkept x hnot]
          rfl
        rw [hlast, valueOf_update, if_pos rfl]
      · exact hval d hmem y hy
    · rw [hkept y fun d hd => hy d (.tail _ hd)]
      refine update_of_ne ?_ _ _
      rintro rfl
      exact hy c (.head _) hx

/-- The whole step that saves the destination of `pick`. -/
theorem Plain.swap (H : Host W) (fn : Function) (h : Plain s) {pick : PhiCopy} (hpick : pick.target = some y)
    (hwf : WellFormed readers) (n : ℕ) :
    ∃ s', s.execAll H fn (assign pick.phi (.ofSymbol (swapName n)) pick.phi.dest ::
        readers.map fun c => assign c.phi c.phi.dest (.ofSymbol (swapName n))) = some s' ∧
      Plain s' ∧ (∀ c ∈ readers, ∀ x, c.target = some x → valueOf s' x = valueOf s y) ∧
      ∀ x, (∀ c ∈ readers, c.target ≠ some x) → x ≠ swapName n → s'.env x = s.env x := by
  have hcopy : IsCopy (assign pick.phi (.ofSymbol (swapName n)) pick.phi.dest) (swapName n) := by
    refine ⟨pick.phi, _, pick.phi.dest, rfl, rfl, ?_⟩
    rcases (Operand.kind_of_var hpick).1 with hk | hk <;> rw [hk] <;> decide
  obtain ⟨v, hv, hexec⟩ := h.exec H fn hcopy
  obtain rfl : valueOf s y = v := by
    rw [h.assigned hpick] at hv
    exact some.inj hv
  obtain ⟨s', hrun, hplain, hval, hkept⟩ := (h.update (swapName n) (valueOf s y)).saved H fn hwf n
  refine ⟨s', by rw [State.execAll, hexec]; exact hrun, hplain, fun c hc x hx => ?_, fun x hx hne => ?_⟩
  · rw [hval c hc x hx, valueOf_update, if_pos rfl]
  · rw [hkept x hx]
    exact update_of_ne hne _ _

/-- What one part of the pending copies writes the other does not. -/
theorem WellFormed.apart {taken : List PhiCopy} (hwf : WellFormed pending) (hperm : (taken ++ left).Perm pending)
    (hc : c ∈ taken) (hd : d ∈ left) : c.target ≠ d.target := by
  intro heq
  have hnodup : (taken ++ left).Nodup := hperm.nodup_iff.mpr (Nodup.of_map _ hwf.distinct)
  exact (nodup_append.mp hnodup).2.2 c hc d hd (hwf.eq_of_target (hperm.subset (mem_append_left _ hc))
    (hperm.subset (mem_append_right _ hd)) heq)

/-- A copy that reads a variable no pending copy writes gets its value. -/
theorem Emits.reads (fn : Function) (h : Emits pending out) (hwf : WellFormed pending) (hk : k ∈ pending)
    (hy : k.incoming.var = some y) (hnot : ∀ c ∈ pending, c.target ≠ some y) (hfresh : ∀ n, y ≠ swapName n)
    (hs : Plain s) : ∃ s', s.execAll H fn out = some s' ∧ ∀ x, k.target = some x → valueOf s' x = valueOf s y := by
  -- on the rounds in which the copies are emitted
  induction h generalizing s with
  | done => cases hk
  | round htaken hleft hperm hlater _ hrest ih =>
    obtain ⟨s₁, hrun₁, hplain₁, hdone⟩ := hs.round H fn (hwf.sublist htaken) hlater
    rw [State.execAll_append, hrun₁, bind_some]
    rcases mem_append.mp (hperm.symm.subset hk) with hmem | hmem
    · -- emitted in this round, and not written again
      obtain ⟨s', hrun, -, hkept⟩ := hplain₁.execAll (H := H) fun i hi => by
        obtain ⟨x, hcopy, -⟩ := hrest.mem (hwf.sublist hleft) hi
        exact ⟨x, hcopy⟩
      refine ⟨s', hrun, fun x hx => ?_⟩
      obtain ⟨v, hv, henv⟩ := hdone.assigned k hmem x hx
      have hvy : s.assigned H k.copy = some (valueOf s y) := hs.assigned hy
      obtain rfl := some.inj (hvy.symm.trans hv)
      obtain ⟨u, hu⟩ := hs x
      unfold valueOf
      rw [hkept x fun i hi heq => ?_, henv, hu]
      · simp [Var.write, valueOf]
      · obtain ⟨z, ⟨phi, dest, lhs, rfl, hz, -⟩, hwhere⟩ := hrest.mem (hwf.sublist hleft) hi
        obtain rfl := some.inj (hz.symm.trans heq)
        rcases hwhere with ⟨c, hc, hcz⟩ | ⟨n, rfl⟩
        · exact hwf.apart hperm hmem hc (hx.trans hcz.symm)
        · exact hwf.fresh k hk n hx
    · -- still pending
      obtain ⟨s', hrun, hval⟩ := ih (hwf.sublist hleft) hmem (fun c hc => hnot c (hleft.subset hc)) hplain₁
      refine ⟨s', hrun, fun x hx => ?_⟩
      rw [hval x hx]
      unfold valueOf
      rw [hdone.kept y fun c hc => hnot c (htaken.subset hc)]
  -- a cycle: one destination is saved, and its readers take the saved value from now on
  | @swap pick _ _ counter _ _ ih =>
    obtain ⟨z, hz⟩ := hwf.named pick mem_cons_self
    obtain ⟨s₁, hrun₁, hplain₁, -, hkept⟩ := hs.swap H fn hz
      (hwf.sublist (filter_sublist (p := fun c => c.reads pick.phi.dest))) counter
    have hleft : k.reads pick.phi.dest = false := by
      by_contra hreads
      rw [Bool.not_eq_false] at hreads
      exact hnot pick (.head _) ((reads_target hreads).symm.trans hy)
    obtain ⟨s', hrun, hval⟩ := ih (hwf.sublist filter_sublist) (mem_filter.mpr ⟨hk, by simp [hleft]⟩)
      (fun c hc => hnot c (mem_of_mem_filter hc)) hplain₁
    refine ⟨s', by rw [State.execAll_append, hrun₁]; exact hrun, fun x hx => ?_⟩
    rw [hval x hx]
    unfold valueOf
    rw [hkept y (fun c hc => hnot c (mem_of_mem_filter hc)) (hfresh counter)]

/-- On a cycle some copy gets the value of a variable that it does not read. -/
theorem Emits.cycle (h : Emits pending out) (hwf : WellFormed pending) (hcycle : ¬ Acyclic pending Reads) :
    ∃ p ∈ pending, ∃ j ∈ pending, ∃ k ∈ pending, j ≠ p ∧ k.incoming.var = j.target ∧
      ∀ {W : Type} (H : Host W) (fn : Function) {s : State W}, Plain s → ∃ s', s.execAll H fn out = some s' ∧
          ∀ x y, k.target = some x → p.target = some y → valueOf s' x = valueOf s y := by
  induction h with
  | done =>
    exact absurd (fun a hcyc => by
      obtain ⟨b, -, hba⟩ := Relation.TransGen.tail'_iff.mp hcyc
      cases hba.1) hcycle
  | @round pending taken left _ htaken hleft hperm hlater hnone _ ih =>
    -- what the round takes is on no cycle, so the cycle is left
    have hordered : ∀ before c after, taken = before ++ c :: after → ∀ d ∈ pending, Reads d c → d ∈ before := by
      intro before c after htk d hd hreads
      have hmem : c ∈ taken := by
        rw [htk]
        simp
      rcases mem_append.mp (hperm.symm.subset hd) with hd | hd
      · rw [htk, mem_append, mem_cons] at hd
        rcases hd with hd | rfl | hd
        · exact hd
        · exact absurd hreads (by simp [Reads, hwf.moves d (htaken.subset hmem)])
        · rw [htk, pairwise_append, pairwise_cons] at hlater
          exact absurd hreads (by simp [Reads, hlater.2.1.1 d hd])
      · exact absurd hreads (by simp [Reads, hnone c hmem d hd])
    have hkeeps : ¬ Acyclic left Reads := by
      intro hacyclic
      refine hcycle fun a hcyc => hacyclic a ?_
      refine cycle_within (fun b hb hcyc' => ?_) hcyc hcyc
      exact (mem_append.mp (hperm.symm.subset hb)).resolve_left
        fun hb => absurd hcyc' (not_cycle_of_ordered hordered hb)
    obtain ⟨p, hp, j, hj, k, hk, hne, hreads, hval⟩ := ih (hwf.sublist hleft) hkeeps
    refine ⟨p, hleft.subset hp, j, hleft.subset hj, k, hleft.subset hk, hne, hreads, fun {W} H fn s hs => ?_⟩
    obtain ⟨s₁, hrun₁, hplain₁, hdone⟩ := hs.round H fn (hwf.sublist htaken) hlater
    obtain ⟨s', hrun, hval'⟩ := hval H fn hplain₁
    refine ⟨s', by rw [State.execAll_append, hrun₁]; exact hrun, fun x y hx hy => ?_⟩
    rw [hval' x y hx hy]
    unfold valueOf
    rw [hdone.kept y fun c hc hcy => hwf.apart hperm hc hp (hcy.trans hy.symm)]
  | @swap pick _ _ counter hstuck hrest _ =>
    -- a reader of the saved destination, and a reader of that one
    obtain ⟨j, hj, hreads⟩ := hstuck pick mem_cons_self
    obtain ⟨k, hk, hkj⟩ := hstuck j hj
    have hne : j ≠ pick := by
      rintro rfl
      rw [hwf.moves j hj] at hreads
      cases hreads
    refine ⟨pick, mem_cons_self, j, hj, k, hk, hne, reads_target hkj, fun {W} H fn s hs => ?_⟩
    obtain ⟨y, hy⟩ := hwf.named pick mem_cons_self
    obtain ⟨z, hz⟩ := hwf.named j hj
    obtain ⟨s₁, hrun₁, hplain₁, hval₁, -⟩ := hs.swap H fn hy
      (hwf.sublist (filter_sublist (p := fun c => c.reads pick.phi.dest))) counter
    have hleft : k.reads pick.phi.dest = false := by
      by_contra hkp
      rw [Bool.not_eq_false] at hkp
      exact hne (hwf.eq_of_target hj mem_cons_self ((reads_target hkj).symm.trans (reads_target hkp)))
    obtain ⟨s', hrun, hval⟩ := hrest.reads fn (H := H) (y := z) (hwf.sublist filter_sublist)
      (mem_filter.mpr ⟨hk, by simp [hleft]⟩) ((reads_target hkj).trans hz) (fun c hc hcz => by
        have hcj := hwf.eq_of_target (mem_of_mem_filter hc) hj (hcz.trans hz.symm)
        have := (mem_filter.mp hc).2
        rw [hcj, hreads] at this
        cases this) (fun n hn => hwf.fresh j hj n (hn ▸ hz)) hplain₁
    refine ⟨s', by rw [State.execAll_append, hrun₁]; exact hrun, fun x y' hx hy' => ?_⟩
    obtain rfl := some.inj (hy.symm.trans hy')
    rw [hval x hx, hval₁ j (mem_filter.mpr ⟨hj, hreads⟩) z hz]

end PhiCopy

/-! ## The pass -/

namespace Function

variable {b t counter : ℕ} {insts saved copies : List Inst}

/-- The operand of a phi of `t` that comes in from `b`. -/
def incoming (fn : Function) (b t : ℕ) (phi : Inst) : Operand :=
  phi.arguments.getD ((fn.phiSlot b t).getD 0 * 2) {}

/-- The phis of `t`, as the edge from `b` sees them: one operand for each predecessor, destinations that
are different variables and no saved ones, operands that are values, and equal operands where they name
a destination. -/
structure PhisWellFormed (fn : Function) (b t : ℕ) : Prop where
  slots : ∀ phi ∈ fn.phis t, phi.arguments.length = (fn.blockPredecessors t).length * 2
  named : ∀ phi ∈ fn.phis t, ∃ x, phi.dest.var = some x
  distinct : ((fn.phis t).map fun phi => phi.dest.var).Nodup
  operand : ∀ phi ∈ fn.phis t, (fn.incoming b t phi).kind ≠ .none ∧ (fn.incoming b t phi).kind ≠ .label ∧
    ((fn.incoming b t phi).kind = .temp ∨ (fn.incoming b t phi).kind = .symbol →
      (fn.incoming b t phi).name.isSome = true)
  seen : ∀ phi ∈ fn.phis t, ∀ phi' ∈ fn.phis t, (fn.incoming b t phi).var = phi'.dest.var →
    (fn.incoming b t phi).same phi'.dest = true
  fresh : ∀ phi ∈ fn.phis t, ∀ n, phi.dest.var ≠ some (PhiCopy.swapName n)

section

variable (hb : b < fn.blockStarts.length) (ht : t ∈ fn.blockSuccessors b)
include hb ht

theorem phiSlot_of_edge : ∃ slot < (fn.blockPredecessors t).length, fn.phiSlot b t = some slot := by
  have hmem : b ∈ fn.blockPredecessors t :=
    mem_filter.mpr ⟨mem_range.mpr hb, by simpa using ht⟩
  cases hslot : fn.phiSlot b t with
  | none =>
    have := findIdx?_eq_none_iff.mp hslot b hmem
    simp at this
  | some slot =>
    obtain ⟨hlt, -⟩ := findIdx?_eq_some_iff_getElem.mp hslot
    exact ⟨slot, hlt, rfl⟩

/-- The copies of an edge are the phis whose operand is not their own destination. -/
theorem edgePairs_eq (hwf : fn.PhisWellFormed b t) :
    fn.edgePairs b t = ((fn.phis t).filter fun phi => !(fn.incoming b t phi).same phi.dest).map
      fun phi => { phi := phi, incoming := fn.incoming b t phi } := by
  obtain ⟨slot, hlt, hslot⟩ := phiSlot_of_edge hb ht
  have hincoming : ∀ phi, fn.incoming b t phi = phi.arguments.getD (slot * 2) {} := by
    intro phi
    unfold incoming
    rw [hslot, getD_some]
  have hslots := hwf.slots
  have hoperand := hwf.operand
  unfold edgePairs
  rw [hslot]
  simp only
  generalize fn.phis t = phis at hslots hoperand
  induction phis with
  | nil => rfl
  | cons phi rest ih =>
    have hlong : ¬ phi.arguments.length ≤ slot * 2 := by
      rw [hslots phi mem_cons_self]
      omega
    have hnone : (phi.arguments.getD (slot * 2) {}).kind ≠ .none := by
      rw [← hincoming]
      exact (hoperand phi (.head _)).1
    have hrest := ih (fun p hp => hslots p (.tail _ hp)) fun p hp => hoperand p (.tail _ hp)
    rw [filterMap_cons, if_neg hlong, filter_cons, hincoming]
    by_cases hsame : (phi.arguments.getD (slot * 2) {}).same phi.dest = true
    · simp only [hnone, hsame, or_true, if_true, Bool.not_true, Bool.false_eq_true, if_false]
      exact hrest
    · rw [Bool.not_eq_true] at hsame
      simp only [hnone, hsame, Bool.false_eq_true, or_self, if_false, Bool.not_false, if_true, map_cons, hincoming]
      rw [hrest]
      simp only [hincoming]

/-- The copies of an edge are the phis whose incoming value is another one. -/
theorem mem_edgePairs (hwf : fn.PhisWellFormed b t) {c : PhiCopy} :
    c ∈ fn.edgePairs b t ↔ c.phi ∈ fn.phis t ∧ c.incoming = fn.incoming b t c.phi ∧
      c.incoming.same c.phi.dest = false := by
  rw [edgePairs_eq hb ht hwf, List.mem_map]
  constructor
  · rintro ⟨phi, hphi, rfl⟩
    rw [mem_filter, Bool.not_eq_true'] at hphi
    exact ⟨hphi.1, rfl, hphi.2⟩
  · rintro ⟨hphi, heq, hsame⟩
    refine ⟨c.phi, mem_filter.mpr ⟨hphi, ?_⟩, ?_⟩
    · rw [← heq, hsame]
      rfl
    · rw [← heq]

/-- The copies of an edge are well formed when the phis are. -/
theorem wellFormed_edgePairs (hwf : fn.PhisWellFormed b t) : PhiCopy.WellFormed (fn.edgePairs b t) := by
  have hmem := fun c => (mem_edgePairs hb ht hwf (c := c)).mp
  refine ⟨fun c hc => hwf.named _ (hmem c hc).1, ?_, fun c hc => (hmem c hc).2.2, fun c hc => ?_,
    fun c hc d hd heq => ?_, fun c hc => hwf.fresh _ (hmem c hc).1⟩
  · rw [edgePairs_eq hb ht hwf, List.map_map]
    exact hwf.distinct.sublist (filter_sublist.map _)
  · rw [(hmem c hc).2.1]
    exact (hwf.operand _ (hmem c hc).1).2
  · have hc' := hmem c hc
    unfold PhiCopy.reads
    rw [hc'.2.1] at heq ⊢
    exact hwf.seen _ hc'.1 _ (hmem d hd).1 heq

end

/-- No copy reads its own destination. -/
theorem moves_edgePairs (fn : Function) (b t : ℕ) : ∀ c ∈ fn.edgePairs b t, c.reads c.phi.dest = false := by
  intro c hc
  unfold edgePairs at hc
  split at hc
  · cases hc
  · obtain ⟨phi, -, hphi⟩ := mem_filterMap.mp hc
    split at hphi
    · cases hphi
    · simp only at hphi
      split at hphi
      · cases hphi
      · rename_i hskip
        cases hphi
        rw [not_or, Bool.not_eq_true] at hskip
        exact hskip.2

/-- The copies of all edges of a block can be ordered. -/
theorem exists_blockCopies (fn : Function) (b : ℕ) (targets : List ℕ) (counter : ℕ) :
    ∃ copies saved, fn.blockCopies b counter targets = some (copies, saved) := by
  induction targets generalizing counter with
  | nil => exact ⟨[], [], rfl⟩
  | cons t rest ih =>
    obtain ⟨copies, saved, hedge⟩ := PhiCopy.sequentialize_isSome (fn.edgePairs b t).length counter
      (fn.edgePairs b t) le_rfl (fn.moves_edgePairs b t)
    obtain ⟨copies', saved', hrest⟩ := ih (counter + saved.length)
    refine ⟨copies ++ copies', saved ++ saved', ?_⟩
    simp only [blockCopies, edgeCopies, hedge, bind_some, hrest, map_some]

/-- The pass returns, and lays out the blocks one after another. -/
theorem exists_leaveBlocks (fn : Function) (blocks : List ℕ) (counter : ℕ) :
    ∃ insts saved, fn.leaveBlocks counter blocks = some (insts, saved) ∧ ∀ b ∈ blocks, ∃ n copies saved' before after,
        fn.blockCopies b n (fn.blockSuccessors b) = some (copies, saved') ∧
        insts = before ++ (fn.blockBody b ++ copies ++ fn.blockTerminator b) ++ after := by
  induction blocks generalizing counter with
  | nil => exact ⟨[], [], rfl, by simp⟩
  | cons b rest ih =>
    obtain ⟨copies, saved, hcopies⟩ := fn.exists_blockCopies b (fn.blockSuccessors b) counter
    obtain ⟨insts, saved', hrest, hplace⟩ := ih (counter + saved.length)
    refine ⟨fn.blockBody b ++ copies ++ fn.blockTerminator b ++ insts, saved ++ saved', ?_, ?_⟩
    · simp only [leaveBlocks, hcopies, bind_some, hrest, map_some]
    · intro b' hb'
      rcases mem_cons.mp hb' with rfl | hb'
      · exact ⟨counter, copies, saved, [], insts, hcopies, by simp⟩
      · obtain ⟨n, copies', saved'', before, after, hcopies', rfl⟩ := hplace b' hb'
        exact ⟨n, copies', saved'', fn.blockBody b ++ copies ++ fn.blockTerminator b ++ before, after,
          hcopies', by simp⟩

/-- A phi gets the value its operand had in `s`: a destination that is its own operand is kept, another is
assigned. -/
def Receives (H : Host W) (s s' : State W) (phi : Inst) (o : Operand) : Prop :=
  ∀ x, phi.dest.var = some x →
    if o.same phi.dest = true then s'.env x = s.env x
    else ∃ v, s.assigned H (PhiCopy.assign phi phi.dest o) = some v ∧
      s'.env x = (s.env x).map fun var => var.write H.floats v

/-- Executing the copies, from any state with their variables in the frame, is the parallel assignment of
the phis of `t` along the edge from `b`. -/
def ParallelAssignment (fn : Function) (b t : ℕ) (copies : List Inst) : Prop :=
  ∀ (W : Type) (H : Host W) (f : Function) (s : State W),
    (∀ i ∈ copies, ∀ x, i.dest.var = some x ∨ i.lhs.var = some x → ∃ var, s.env x = some var) →
    ∃ s', s.execAll H f copies = some s' ∧ ∀ phi ∈ fn.phis t, Receives H s s' phi (fn.incoming b t phi)

/-- Without a cycle the copies are a parallel assignment. -/
theorem parallel_of_acyclic (hb : b < fn.blockStarts.length) (ht : t ∈ fn.blockSuccessors b)
    (hwf : fn.PhisWellFormed b t) (hedge : fn.edgeCopies b t counter = some (copies, saved))
    (hacyclic : Acyclic (fn.edgePairs b t) PhiCopy.Reads) : fn.ParallelAssignment b t copies := by
  obtain ⟨order, hperm, hlater, rfl⟩ := (PhiCopy.emits_of_sequentialize hedge).acyclic hacyclic
  have hpairs := wellFormed_edgePairs hb ht hwf
  intro W H f s hframe
  obtain ⟨s', hrun, hdone⟩ := PhiCopy.execAll_copies (H := H) (s := s) (hpairs.perm hperm) hlater (by
    intro c hc x hx
    exact hframe c.copy (List.mem_map_of_mem hc) x hx)
  refine ⟨s', hrun, fun phi hphi x hx => ?_⟩
  split
  · -- its own operand: no copy writes it
    rename_i hsame
    refine hdone.kept x fun c hc hcx => ?_
    obtain ⟨hcphi, heq, hne⟩ := (mem_edgePairs hb ht hwf).mp (hperm.subset hc)
    have hphis : c.phi = phi := inj_on_of_nodup_map hwf.distinct hcphi hphi (hcx.trans hx.symm)
    rw [heq, hphis, hsame] at hne
    cases hne
  · rename_i hsame
    rw [Bool.not_eq_true] at hsame
    have hc : (⟨phi, fn.incoming b t phi⟩ : PhiCopy) ∈ order :=
      hperm.symm.subset ((mem_edgePairs hb ht hwf).mpr ⟨hphi, rfl, hsame⟩)
    exact hdone.assigned _ hc x hx

/-- On a cycle they are not. -/
theorem not_parallel_of_cycle (hb : b < fn.blockStarts.length) (ht : t ∈ fn.blockSuccessors b)
    (hwf : fn.PhisWellFormed b t) (hedge : fn.edgeCopies b t counter = some (copies, saved))
    (hcycle : ¬ Acyclic (fn.edgePairs b t) PhiCopy.Reads) : ¬ fn.ParallelAssignment b t copies := by
  intro hparallel
  have hpairs := wellFormed_edgePairs hb ht hwf
  obtain ⟨p, hp, j, hj, k, hk, hne, hreads, hval⟩ := (PhiCopy.emits_of_sequentialize hedge).cycle hpairs hcycle
  obtain ⟨y, hy⟩ := hpairs.named p hp
  obtain ⟨z, hz⟩ := hpairs.named j hj
  obtain ⟨x, hx⟩ := hpairs.named k hk
  have hzy : z ≠ y := by
    rintro rfl
    exact hne (hpairs.eq_of_target hj hp (hz.trans hy.symm))
  -- a state that tells the destination of `p` from the others
  let s : State Unit :=
    { env := fun u => some { value := .ofInt (if u = y then 1 else 0), size := 8 }, world := () }
  have hplain : PhiCopy.Plain s := fun u => ⟨_, rfl⟩
  obtain ⟨s', hrun, hreceives⟩ := hparallel Unit .scalars fn s fun i _ u _ => ⟨_, rfl⟩
  obtain ⟨s'', hrun', hval'⟩ := hval .scalars fn hplain
  obtain rfl : s' = s'' := some.inj (hrun.symm.trans hrun')
  obtain ⟨hkphi, hkin, hksame⟩ := (mem_edgePairs hb ht hwf).mp hk
  have hkx := hreceives k.phi hkphi x hx
  rw [← hkin, if_neg (by rw [hksame]; decide)] at hkx
  obtain ⟨v, hv, henv⟩ := hkx
  rw [hplain.assigned (hreads.trans hz)] at hv
  cases hv
  have hgot := hval' x y hx hy
  unfold PhiCopy.valueOf at hgot
  rw [henv] at hgot
  simp [s, Var.write, PhiCopy.valueOf, hzy, Value.ofInt] at hgot

/-- The block `b` in the output of the pass: its body, then copies, then its terminator. -/
theorem exists_irLeaveSsaPass (fn : Function) (typeName : MtlcType → Option String)
    (hb : b < fn.blockStarts.length) (hphis : fn.phis t ≠ []) :
    ∃ out declared before n copies saved after, fn.irLeaveSsaPass typeName = some out ∧
      fn.blockCopies b n (fn.blockSuccessors b) = some (copies, saved) ∧
      out.instructions = declareFirst declared
        (before ++ (fn.blockBody b ++ copies ++ fn.blockTerminator b) ++ after) := by
  obtain ⟨insts, saved, hleave, hplace⟩ := fn.exists_leaveBlocks (range fn.blockStarts.length) 0
  obtain ⟨n, copies, saved', before, after, hcopies, hinsts⟩ := hplace b (mem_range.mpr hb)
  have hphi : ¬ (fn.instructions.all fun i => i.op ≠ .phi) = true := by
    intro hall
    obtain ⟨phi, hmem⟩ := exists_mem_of_ne_nil _ hphis
    obtain ⟨hin, hop⟩ := mem_filter.mp hmem
    have := List.all_eq_true.mp hall phi (mem_of_mem_take (mem_of_mem_drop hin))
    simp_all
  refine ⟨{ fn with instructions := declareFirst (saved.mapIdx (swapDeclaration typeName)) insts },
    saved.mapIdx (swapDeclaration typeName), before, n, copies, saved', after, ?_, hcopies, ?_⟩
  · unfold irLeaveSsaPass
    rw [if_neg hphi, hleave, map_some]
  · rw [hinsts]

/-- The copies the pass appends to a predecessor are a parallel assignment exactly when they form no
cycle. -/
theorem leaveSsa_parallel_iff (fn : Function) (typeName : MtlcType → Option String) (b t : ℕ)
    (hb : b < fn.blockStarts.length) (ht : t ∈ fn.blockSuccessors b) (hphis : fn.phis t ≠ [])
    (hsingle : ∀ p ∈ fn.blockPredecessors t, (fn.blockSuccessors p).length ≤ 1)
    (hwf : fn.PhisWellFormed b t) :
    (∃ out declared before n copies saved after, fn.irLeaveSsaPass typeName = some out ∧
      fn.blockCopies b n (fn.blockSuccessors b) = some (copies, saved) ∧
      out.instructions = declareFirst declared
        (before ++ (fn.blockBody b ++ copies ++ fn.blockTerminator b) ++ after)) ∧
      ∀ n copies saved, fn.blockCopies b n (fn.blockSuccessors b) = some (copies, saved) →
        (fn.ParallelAssignment b t copies ↔ Acyclic (fn.edgePairs b t) PhiCopy.Reads) := by
  refine ⟨exists_irLeaveSsaPass fn typeName hb hphis, fun n copies saved hcopies => ?_⟩
  -- the edge is the only one from its block
  have hone : fn.blockSuccessors b = [t] := by
    have hpred : b ∈ fn.blockPredecessors t :=
      List.mem_filter.mpr ⟨List.mem_range.mpr hb, by simpa using ht⟩
    have hlength : (fn.blockSuccessors b).length = 1 :=
      Nat.le_antisymm (hsingle b hpred) (List.length_pos_of_mem ht)
    obtain ⟨u, hu⟩ := List.length_eq_one_iff.mp hlength
    rw [hu, List.mem_singleton] at ht
    rw [hu, ht]
  rw [hone] at hcopies
  obtain ⟨copies', saved', hedge⟩ := PhiCopy.sequentialize_isSome (fn.edgePairs b t).length n
    (fn.edgePairs b t) le_rfl (fn.moves_edgePairs b t)
  have heq : copies = copies' := by
    simp only [blockCopies, edgeCopies, hedge, Option.bind_some, Option.map_some, List.append_nil,
      Option.some.injEq, Prod.mk.injEq] at hcopies
    exact hcopies.1.symm
  rw [heq]
  constructor
  · intro hparallel
    by_contra hcycle
    exact not_parallel_of_cycle hb ht hwf hedge hcycle hparallel
  · exact parallel_of_acyclic hb ht hwf hedge

/-- A loop that swaps `x` and `y` in every iteration: `x = φ(a, y); y = φ(b, x)`. -/
def swapLoop : Function where
  instructions := [
    { op := .jump, text := some "L" },
    { op := .label, text := some "L" },
    { op := .phi, dest := .ofSymbol "x",
      arguments := [.ofSymbol "a", {}, .ofSymbol "y", { kind := .label, name := some "L" }] },
    { op := .phi, dest := .ofSymbol "y",
      arguments := [.ofSymbol "b", {}, .ofSymbol "x", { kind := .label, name := some "L" }] },
    { op := .jump, text := some "L" }]

/-- The phis of the loop and what they take in. -/
theorem swapLoop_phis (b : ℕ) (hb : b = 0 ∨ b = 1) :
    ∀ phi ∈ swapLoop.phis 1, (phi = swapLoop.insn 2 ∨ phi = swapLoop.insn 3) ∧
      swapLoop.incoming b 1 phi ∈ ([.ofSymbol "a", .ofSymbol "b", .ofSymbol "x", .ofSymbol "y"] : List Operand) := by
  rcases hb with rfl | rfl <;> decide

theorem swapLoop_wellFormed (b : ℕ) (hb : b = 0 ∨ b = 1) : swapLoop.PhisWellFormed b 1 := by
  have hphis := swapLoop_phis b hb
  refine ⟨by decide, fun phi hphi => ?_, by decide, fun phi hphi => ?_, ?_, fun phi hphi n h => ?_⟩
  · rcases (hphis phi hphi).1 with rfl | rfl
    · exact ⟨"x", rfl⟩
    · exact ⟨"y", rfl⟩
  · have hmem := (hphis phi hphi).2
    simp only [mem_cons, not_mem_nil, or_false] at hmem
    rcases hmem with h | h | h | h <;> rw [h] <;> decide
  · rcases hb with rfl | rfl <;> decide
  · have hlong : (PhiCopy.swapName n).length = 10 + (toString n).length := by
      unfold PhiCopy.swapName
      rw [String.length_append]
      rfl
    rcases (hphis phi hphi).1 with rfl | rfl
    · have := congrArg String.length (some.inj h)
      have hone : "x".length = 1 := rfl
      omega
    · have := congrArg String.length (some.inj h)
      have hone : "y".length = 1 := rfl
      omega

/-- The copies on the entry of the loop. -/
def swapEntryCopies : List Inst := [
  { op := .assign, dest := .ofSymbol "x", lhs := .ofSymbol "a" },
  { op := .assign, dest := .ofSymbol "y", lhs := .ofSymbol "b" }]

/-- Entering the loop assigns `a` to `x` and `b` to `y`. -/
theorem leaveSsa_parallel_iff_entry :
    swapLoop.blockCopies 0 0 (swapLoop.blockSuccessors 0) = some (swapEntryCopies, []) ∧
      (swapLoop.ParallelAssignment 0 1 swapEntryCopies ↔
        Acyclic (swapLoop.edgePairs 0 1) PhiCopy.Reads) := by
  have hcopies : swapLoop.blockCopies 0 0 (swapLoop.blockSuccessors 0) = some (swapEntryCopies, []) := by
    decide
  exact ⟨hcopies, (leaveSsa_parallel_iff swapLoop (fun _ => none) 0 1 (by decide)
    (by decide) (by decide) (by decide)
    (swapLoop_wellFormed 0 (Or.inl rfl))).2 0 swapEntryCopies [] hcopies⟩

/-- The state before an iteration of the loop, `x = 1` and `y = 2`. -/
def swapState : State Unit where
  env := fun x =>
    some { value := .ofInt (if x = "x" then 1 else if x = "y" then 2 else 0), size := 8 }
  world := ()

/-- The swap loses a value: `x` gets its own old value. -/
theorem leaveSsa_loses_swap :
    ¬ ∀ (fn : Function) (b t counter : ℕ) (copies saved : List Inst), b < fn.blockStarts.length →
      t ∈ fn.blockSuccessors b → fn.phis t ≠ [] →
      (∀ p ∈ fn.blockPredecessors t, (fn.blockSuccessors p).length ≤ 1) → fn.PhisWellFormed b t →
      fn.blockCopies b counter (fn.blockSuccessors b) = some (copies, saved) →
      fn.ParallelAssignment b t copies := by
  intro h
  obtain ⟨copies, saved, hcopies⟩ := swapLoop.exists_blockCopies 1 (swapLoop.blockSuccessors 1) 0
  have hparallel := h swapLoop 1 1 0 copies saved (by decide) (by decide)
    (by decide) (by decide) (swapLoop_wellFormed 1 (Or.inr rfl)) hcopies
  obtain ⟨s', hrun, hreceives⟩ := hparallel Unit .scalars swapLoop swapState fun i _ x _ => ⟨_, rfl⟩
  have hx := hreceives (swapLoop.insn 2) (by decide) "x" rfl
  have hin : swapLoop.incoming 1 1 (swapLoop.insn 2) = .ofSymbol "y" := by decide
  rw [hin, if_neg (by decide)] at hx
  obtain ⟨v, hv, henv⟩ := hx
  have hgot : ((swapLoop.blockCopies 1 0 (swapLoop.blockSuccessors 1)).bind fun r =>
      (swapState.execAll .scalars swapLoop r.1).bind fun s => s.env "x") =
      some { value := .ofInt 1, size := 8 } := by decide
  rw [hcopies, Option.bind_some, hrun, Option.bind_some, henv] at hgot
  have hv' : v = .ofInt 2 := by
    have : swapState.assigned .scalars (PhiCopy.assign (swapLoop.insn 2) (swapLoop.insn 2).dest
        (.ofSymbol "y")) = some (.ofInt 2) := by decide
    exact Option.some.inj (hv.symm.trans this)
  rw [hv'] at hgot
  exact absurd hgot (by decide)

end Function

end Mettle.Ir
