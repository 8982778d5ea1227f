import Mettle.Ir.Frame
import Mettle.Ir.IntMap

/-!
# When the map of integers is right

The scan takes the last instruction in the text that may change a symbol for the last one executed. Where that is so of
a run, for the symbol and for those it was copied from, the symbol holds the integer it is mapped to. What is executed
behind the back edge of the loop at the index does no harm: the second scan has looked at it.
-/

open Option

namespace Mettle.Ir

/-! ## The scan -/

namespace Inst

/-- The scan takes the instruction to change the symbol. -/
def mayChange (i : Inst) (x : String) : Bool :=
  i.clobbers ∨ (i.writesDestination ∧ i.dest.isSymbol ∧ i.dest.name = some x) ∨
    (i.op = .rotateAdd ∧ (i.dest.name = some x ∨ i.lhs.name = some x ∨ i.rhs.name = some x))

/-- The second scan takes the instruction to write the symbol. -/
def rewrites (i : Inst) (x : String) : Bool :=
  i.clobbers ∨ (i.writesDestination ∧ i.dest.kind = .symbol ∧ i.dest.name = some x) ∨
    (i.op = .rotateAdd ∧ (i.lhs.name = some x ∨ i.rhs.name = some x))

/-- The instruction has nothing to do with the symbol. -/
def leavesSymbol (addrTaken : String → Bool) (i : Inst) (x : String) : Bool :=
  !i.clobbers && !i.writesName x && !(i.op.isKernel && addrTaken x)

/-- The scans see it when the instruction changes the symbol. -/
def showsWrites (addrTaken : String → Bool) (i : Inst) (x : String) : Bool :=
  i.rewrites x || i.leavesSymbol addrTaken x

/-- An assignment of a symbol. -/
def copies (i : Inst) (y : String) : Prop := i.op = .assign ∧ i.lhs.kind = .symbol ∧ i.lhs.name = some y

/-- An assignment to a symbol of an integer, or of a symbol that is mapped to it. -/
structure Assigns (i : Inst) (m : SymbolIntMap) (x : String) (c : BitVec 64) : Prop where
  op : i.op = .assign
  dest : i.dest.kind = .symbol ∧ i.dest.name = some x
  value : i.lhs.kind = .int ∧ i.lhs.intValue = c ∨ ∃ y, i.copies y ∧ m y = some c

end Inst

section

variable {i : Inst} {m : SymbolIntMap} {x : String} {c : BitVec 64}

/-- Removing a symbol removes its value only. -/
theorem SymbolIntMap.remove_eq_some {y : Option String} : m.remove y x = some c ↔ y ≠ some x ∧ m x = some c := by
  rw [SymbolIntMap.remove, ite_none_left_eq_some]

/-- An assignment to a symbol may change it. -/
theorem Inst.mayChange_of_assign (hop : i.op = .assign) (hdest : i.dest.kind = .symbol ∧ i.dest.name = some x) :
    i.mayChange x = true := by
  simp [Inst.mayChange, Inst.writesDestination, Operand.isSymbol, hop, hdest, Inst.opWritesSymbol]

/-- An assignment that may change a symbol has it as its destination. -/
theorem Inst.dest_of_mayChange_assign (hop : i.op = .assign) (h : i.mayChange x = true) :
    i.dest.kind = .symbol ∧ i.dest.name = some x := by
  obtain ⟨-, hsymbol, hname⟩ : i.dest.kind ≠ .none ∧ i.dest.isSymbol = true ∧ i.dest.name = some x := by
    simpa [Inst.mayChange, Inst.clobbers, Inst.writesDestination, Inst.opWritesSymbol, hop] using h
  exact ⟨(of_decide_eq_true hsymbol).1, hname⟩

/-- What an assignment leaves in the map. -/
theorem Inst.scanAssign_eq_some (hop : i.op = .assign) (hdest : i.dest.isSymbol = true) (h : i.scanAssign m x = some c) :
    i.mayChange x = false ∧ m x = some c ∨ i.Assigns m x c := by
  have hdest' : i.dest.kind = .symbol ∧ i.dest.name.isSome = true := by simpa [Operand.isSymbol] using hdest
  obtain ⟨hkind, hsome⟩ := hdest'
  obtain ⟨d, hd⟩ := isSome_iff_exists.mp hsome
  have hother (hne : d ≠ x) : i.mayChange x = false := by
    simp [Inst.mayChange, Inst.clobbers, hop, hd, hne]
  have hremove (h : m.remove i.dest.name x = some c) : i.mayChange x = false ∧ m x = some c := by
    rw [SymbolIntMap.remove_eq_some, hd] at h
    exact ⟨hother fun heq => h.1 (congrArg some heq), h.2⟩
  -- the map now holds what was assigned, or what it held of another variable
  have hset {v : BitVec 64} (h : m.set (i.dest.name.getD "") v x = some c) :
      i.mayChange x = false ∧ m x = some c ∨ d = x ∧ v = c := by
    rw [SymbolIntMap.set, hd, getD_some] at h
    by_cases heq : x = d
    · rw [heq, Function.update_self] at h
      exact .inr ⟨heq.symm, some.inj h⟩
    · rw [Function.update_of_ne heq] at h
      exact .inl ⟨hother (Ne.symm heq), h⟩
  rw [Inst.scanAssign] at h
  split_ifs at h with hint hsym
  · apply (hset h).imp_right
    rintro ⟨rfl, hv⟩
    exact ⟨hop, ⟨hkind, hd⟩, .inl ⟨hint, hv⟩⟩
  · obtain ⟨y, hy⟩ := isSome_iff_exists.mp hsym.2
    rw [hy, bind_some] at h
    cases hm : m y with
    | none =>
      rw [hm] at h
      exact .inl (hremove h)
    | some v =>
      rw [hm] at h
      apply (hset h).imp_right
      rintro ⟨rfl, rfl⟩
      exact ⟨hop, ⟨hkind, hd⟩, .inr ⟨y, ⟨hop, hsym.1, hy⟩, hm⟩⟩
  · exact .inl (hremove h)

/-- After an instruction a symbol is mapped because it was and the instruction does not change it, or because the
instruction assigns it. -/
theorem Inst.scanBefore_eq_some (h : i.scanBefore m x = some c) :
    i.mayChange x = false ∧ m x = some c ∨ i.Assigns m x c := by
  rw [Inst.scanBefore] at h
  split_ifs at h with hnop hclobbers hassign hsymbol hrotate hwrites
  · refine .inl ⟨?_, h⟩
    simp [Inst.mayChange, Inst.clobbers, Inst.writesDestination, Inst.opWritesSymbol, hnop]
  · cases h
  · exact Inst.scanAssign_eq_some hassign hsymbol h
  · refine .inl ⟨?_, h⟩
    simp [Inst.mayChange, hclobbers, hassign, hsymbol]
  · rw [SymbolIntMap.remove_eq_some, SymbolIntMap.remove_eq_some, SymbolIntMap.remove_eq_some] at h
    obtain ⟨hrhs, hlhs, hdest, hm⟩ := h
    refine .inl ⟨?_, hm⟩
    simp [Inst.mayChange, hclobbers, hrhs, hlhs, hdest]
  · rw [SymbolIntMap.remove_eq_some] at h
    refine .inl ⟨?_, h.2⟩
    simp [Inst.mayChange, hclobbers, hrotate, h.1]
  · refine .inl ⟨?_, h⟩
    rw [not_and] at hwrites
    simp only [Inst.mayChange, hclobbers, hrotate, decide_eq_false_iff_not, false_and, or_false, Bool.false_eq_true,
      false_or, not_and]
    exact fun hw hs => absurd hs (hwrites hw)

/-- What it means that an instruction does not rewrite a symbol. -/
theorem Inst.rewrites_eq_false : i.rewrites x = false ↔ i.clobbers = false ∧
    ¬ (i.writesDestination = true ∧ i.dest.kind = .symbol ∧ i.dest.name = some x) ∧
    ¬ (i.op = .rotateAdd ∧ (i.lhs.name = some x ∨ i.rhs.name = some x)) := by
  rw [Inst.rewrites, decide_eq_false_iff_not, not_or, not_or, Bool.not_eq_true]

/-- The first scan sees all the writes that the second one sees. -/
theorem Inst.rewrites_of_not_mayChange (h : i.mayChange x = false) : i.rewrites x = false := by
  rw [Inst.mayChange, decide_eq_false_iff_not, not_or, not_or, Bool.not_eq_true] at h
  obtain ⟨hclobbers, hwrites, hrotate⟩ := h
  refine Inst.rewrites_eq_false.mpr ⟨hclobbers, fun hw => ?_, fun hr => hrotate ⟨hr.1, .inr hr.2⟩⟩
  exact hwrites ⟨hw.1, by simp [Operand.isSymbol, hw.2], hw.2.2⟩

/-- The second scan only removes, and it removes every symbol that an instruction it looks at writes. -/
theorem Inst.scanAfter_eq_some {l : List Inst} (h : Inst.scanAfter m l x = some c) :
    m x = some c ∧ ∀ i ∈ l, i.rewrites x = false := by
  induction l generalizing m with
  | nil => exact ⟨h, fun i hi => absurd hi List.not_mem_nil⟩
  | cons i rest ih =>
    have hboth {m' : SymbolIntMap} (h : Inst.scanAfter m' rest x = some c)
        (hhere : m' x = some c → m x = some c ∧ i.rewrites x = false) :
        m x = some c ∧ ∀ j ∈ i :: rest, j.rewrites x = false :=
      ⟨(hhere (ih h).1).1, List.forall_mem_cons.mpr ⟨(hhere (ih h).1).2, (ih h).2⟩⟩
    rw [Inst.scanAfter] at h
    split_ifs at h with hnop hclobbers hrotate hwrites hwrites
    · refine hboth h fun hm => ⟨hm, ?_⟩
      simp [Inst.rewrites, Inst.clobbers, Inst.writesDestination, Inst.opWritesSymbol, hnop]
    · cases h
    all_goals
      refine hboth h fun hm => ?_
      rw [Inst.rewrites_eq_false, Bool.eq_false_iff]
    · obtain ⟨hdest, hm⟩ := SymbolIntMap.remove_eq_some.mp hm
      obtain ⟨hrhs, hm⟩ := SymbolIntMap.remove_eq_some.mp hm
      obtain ⟨hlhs, hm⟩ := SymbolIntMap.remove_eq_some.mp hm
      exact ⟨hm, hclobbers, fun hw => hdest hw.2.2, fun hr => hr.2.elim hlhs hrhs⟩
    · obtain ⟨hrhs, hm⟩ := SymbolIntMap.remove_eq_some.mp hm
      obtain ⟨hlhs, hm⟩ := SymbolIntMap.remove_eq_some.mp hm
      exact ⟨hm, hclobbers, fun hw => hwrites ⟨hw.1, hw.2.1⟩, fun hr => hr.2.elim hlhs hrhs⟩
    · obtain ⟨hdest, hm⟩ := SymbolIntMap.remove_eq_some.mp hm
      exact ⟨hm, hclobbers, fun hw => hdest hw.2.2, fun hr => hrotate hr.1⟩
    · exact ⟨hm, hclobbers, fun hw => hwrites ⟨hw.1, hw.2.1⟩, fun hr => hrotate hr.1⟩

end

namespace Function

variable {fn : Function} {q k : ℕ} {x : String} {c : BitVec 64}

/-- The last instruction before an index, in the text, that the scan takes to change a symbol. -/
structure LastChange (fn : Function) (q : ℕ) (x : String) (k : ℕ) : Prop where
  lt : k < q
  changes : (fn.insn k).mayChange x = true
  last : ∀ j, k < j → j < q → (fn.insn j).mayChange x = false

/-- There is one last change. -/
theorem LastChange.unique (h : fn.LastChange q x k) {k' : ℕ} (h' : fn.LastChange q x k') : k = k' := by
  rcases lt_trichotomy k k' with hlt | heq | hgt
  · have hnot := h.last k' hlt h'.lt
    rw [h'.changes] at hnot
    cases hnot
  · exact heq
  · have hnot := h'.last k hgt h.lt
    rw [h.changes] at hnot
    cases hnot

/-- A mapped symbol was last changed by an assignment, in the order of the text. -/
theorem scanBefore_eq_some (h : fn.scanBefore q x = some c) :
    ∃ k, fn.LastChange q x k ∧ (fn.insn k).Assigns (fn.scanBefore k) x c := by
  induction q with
  | zero => cases h
  | succ q ih =>
    rcases Inst.scanBefore_eq_some h with ⟨hkeeps, hm⟩ | hassigns
    · obtain ⟨k, hlast, hassigns⟩ := ih hm
      refine ⟨k, ⟨hlast.lt.trans (Nat.lt_succ_self q), hlast.changes, ?_⟩, hassigns⟩
      intro j hkj hjq
      rcases Nat.lt_succ_iff_lt_or_eq.mp hjq with hlt | rfl
      · exact hlast.last j hkj hlt
      · exact hkeeps
    · refine ⟨q, ⟨Nat.lt_succ_self q, Inst.mayChange_of_assign hassigns.op hassigns.dest, ?_⟩, hassigns⟩
      intro j hlt hle
      omega

/-- The last change of a symbol before an index, in the text, is an assignment of the integer, or of a symbol of which
that is so there. -/
inductive Assigned (fn : Function) : ℕ → String → BitVec 64 → Prop
  | int {q k : ℕ} {x : String} (hlast : fn.LastChange q x k) (hop : (fn.insn k).op = .assign)
      (hlhs : (fn.insn k).lhs.kind = .int) : Assigned fn q x (fn.insn k).lhs.intValue
  | copy {q k : ℕ} {x y : String} {c : BitVec 64} (hlast : fn.LastChange q x k) (hcopy : (fn.insn k).copies y)
      (hassigned : Assigned fn k y c) : Assigned fn q x c

/-- There is one last change, so there is one integer. -/
theorem Assigned.unique {c' : BitVec 64} (h : fn.Assigned q x c) (h' : fn.Assigned q x c') : c = c' := by
  induction h with
  | @int q k x hlast hop hlhs =>
    cases h' with
    | int hlast' => rw [hlast.unique hlast']
    | copy hlast' hcopy =>
      obtain rfl := hlast.unique hlast'
      rw [hcopy.2.1] at hlhs
      cases hlhs
  | @copy q k x y c hlast hcopy hassigned ih =>
    cases h' with
    | int hlast' hop hlhs =>
      obtain rfl := hlast.unique hlast'
      rw [hcopy.2.1] at hlhs
      cases hlhs
    | copy hlast' hcopy' hassigned' =>
      obtain rfl := hlast.unique hlast'
      obtain rfl := some.inj (hcopy.2.2.symm.trans hcopy'.2.2)
      exact ih hassigned'

/-- What the first scan maps was assigned. -/
theorem assigned_of_scanBefore (h : fn.scanBefore q x = some c) : fn.Assigned q x c := by
  induction q using Nat.strong_induction_on generalizing x with
  | _ q ih =>
    obtain ⟨k, hlast, hassigns⟩ := scanBefore_eq_some h
    rcases hassigns.value with ⟨hint, rfl⟩ | ⟨y, hcopy, hm⟩
    · exact .int hlast hassigns.op hint
    · exact .copy hlast hcopy (ih k hlast.lt hm)

/-- The instruction is behind the back edge of the loop whose header is at the index. -/
structure Behind (fn : Function) (q p : ℕ) : Prop where
  lt : q < fn.instructions.length
  label : (fn.insn q).op = .label ∧ (fn.insn q).text ≠ none
  behind : ∃ backedge, fn.ownBackedge q = some backedge ∧ backedge < p

/-- A symbol that is mapped was mapped by the first scan, and nothing behind the back edge writes it. -/
theorem symbolIntMapBefore_eq_some (h : fn.symbolIntMapBefore q x = some c) :
    fn.scanBefore q x = some c ∧ ∀ p, fn.Behind q p → (fn.insn p).rewrites x = false := by
  rw [symbolIntMapBefore] at h
  split_ifs at h with hnone
  · refine ⟨h, fun p hp => ?_⟩
    rcases hnone with hlen | hop | htext
    · exact absurd hp.lt (not_lt.mpr hlen)
    · exact absurd hp.label.1 hop
    · exact absurd htext hp.label.2
  · cases hback : fn.ownBackedge q with
    | none =>
      rw [hback] at h
      refine ⟨h, fun p hp => ?_⟩
      obtain ⟨backedge, hsome, -⟩ := hp.behind
      rw [hback] at hsome
      cases hsome
    | some backedge =>
      rw [hback] at h
      obtain ⟨hm, hafter⟩ := Inst.scanAfter_eq_some h
      refine ⟨hm, fun p hp => ?_⟩
      obtain ⟨backedge', hsome, hlt⟩ := hp.behind
      obtain rfl := some.inj (hback.symm.trans hsome)
      rcases Nat.lt_or_ge p fn.instructions.length with hlen | hlen
      · refine hafter _ ?_
        rw [insn, List.getD_eq_getElem _ _ hlen]
        exact List.mem_drop_iff_getElem.mpr ⟨p - (backedge + 1), by omega, by congr 1; omega⟩
      · rw [insn, List.getD_eq_default _ _ hlen]
        rfl

end Function

/-! ## Symbols that are as the text says -/

variable {W : Type}

section

variable (H : Host W) (G : String → Value → Value)

/-- What a symbol holds after a write: a variable of the frame narrows to its width, another one as `G` says. -/
def State.narrowed (s : State W) (x : String) (v : Value) : Value :=
  match s.env x with
  | some var => (var.write H.floats v).value
  | none => G x v

/-- The symbol holds the integer, after its declared narrowing. -/
def State.Holds (s : State W) (x : String) (c : BitVec 64) : Prop :=
  s.fetch H (.ofSymbol x) = some (s.narrowed H G x (.ofInt c))

variable (fn : Function) (c₀ : Config W)

/-- After `t` steps control is before an instruction. -/
def RunsTo (t pc : ℕ) (s : State W) : Prop := stepN H fn t c₀ = some (.at pc s)

variable (addrTaken : String → Bool)

/-- After `t` steps, for control before instruction `q`: the last instruction before `q` in the text that may change the
symbol was executed, and what was executed since has not changed the symbol. That is asked neither of what lies between
that instruction and `q` nor of what the text says `after` is looked at; these must only show their writes. Where the
symbol was copied from one that holds an integer, that was so of the other one then, whose width the integer survives. -/
inductive Current : (ℕ → Prop) → ℕ → ℕ → String → Prop
  | changed {after : ℕ → Prop} {t q k u : ℕ} {x : String} {s : State W} (hlast : fn.LastChange q x k) (hlt : u < t)
      (hat : RunsTo H fn c₀ u k s)
      (hsince : ∀ v p s', u < v → v < t → RunsTo H fn c₀ v p s' → (fn.insn p).showsWrites addrTaken x = true ∧
        (k < p ∧ p < q ∨ after p ∨ (fn.insn p).rewrites x = false))
      (hcopy : ∀ y c, (fn.insn k).copies y → fn.Assigned k y c → Current (fun _ => False) u k y)
      (hwidth : ∀ y c, (fn.insn k).copies y → fn.Assigned k y c →
        s.narrowed H G x (s.narrowed H G y (.ofInt c)) = s.narrowed H G x (.ofInt c)) :
      Current after t q x

end

variable {H : Host W} {G : String → Value → Value} {fn : Function} {c₀ : Config W}

/-- The value of a symbol, in the frame or of the host. -/
theorem State.fetch_ofSymbol (s : State W) (x : String) :
    s.fetch H (.ofSymbol x) = match s.env x with
      | some var => some var.value
      | none => H.loadVar s.world x := rfl

variable {s s' : State W}

/-- What a variable narrows a value to depends on its width. -/
theorem State.Same.narrowed_eq {x : String} (h : State.Same H s s' (.ofSymbol x)) (v : Value) :
    s'.narrowed H G x v = s.narrowed H G x v := by
  rw [State.narrowed, State.narrowed, (h x rfl).1]

/-- A variable that is the same holds the same. -/
theorem State.Holds.same {x : String} {c : BitVec 64} (h : s.Holds H G x c) (hsame : State.Same H s s' (.ofSymbol x)) :
    s'.Holds H G x c := by
  rw [State.Holds, State.fetch_same hsame, hsame.narrowed_eq]
  exact h

/-- A write leaves the narrowed value, and the width as it was. -/
theorem State.storeDest_narrows (hstore : ∀ w x v w', H.storeVar w x v = some w' → H.loadVar w' x = some (G x v))
    {d : Operand} {x : String} (hd : d.kind = .symbol ∧ d.name = some x) {v : Value} (h : s.storeDest H d v = some s') :
    s'.fetch H (.ofSymbol x) = some (s.narrowed H G x v) ∧ ∀ v', s'.narrowed H G x v' = s.narrowed H G x v' := by
  rw [State.storeDest, hd.1, hd.2] at h
  simp only at h
  rw [State.fetch_ofSymbol]
  cases henv : s.env x with
  | some var =>
    rw [henv] at h
    cases h
    simp only [State.narrowed, Function.update_self, henv]
    exact ⟨trivial, fun _ => rfl⟩
  | none =>
    rw [henv, map_eq_some_iff] at h
    obtain ⟨w, hw, rfl⟩ := h
    simp only [State.narrowed, henv]
    exact ⟨hstore _ _ _ _ hw, fun _ => trivial⟩

/-- An assignment of an integer, or of a symbol, leaves it narrowed. -/
theorem State.exec_assign (hstore : ∀ w x v w', H.storeVar w x v = some w' → H.loadVar w' x = some (G x v)) {i : Inst}
    {x : String} (hop : i.op = .assign) (hd : i.dest.kind = .symbol ∧ i.dest.name = some x)
    (hlhs : i.lhs.kind ≠ .string) (h : s.exec H fn i = some s') :
    ∃ v, s.fetch H i.lhs = some v ∧ s'.fetch H (.ofSymbol x) = some (s.narrowed H G x v) ∧
      ∀ v', s'.narrowed H G x v' = s.narrowed H G x v' := by
  have hassigned : s.assigned H i = s.fetch H i.lhs := by
    rw [State.assigned, if_neg fun hstring => hlhs hstring.1]
  rw [State.exec, if_neg (by rw [hop]; decide), bind_eq_some_iff] at h
  obtain ⟨⟨values, w⟩, heffect, hall⟩ := h
  simp only [State.effect, hop, hassigned, map_eq_some_iff, Prod.mk.injEq] at heffect
  obtain ⟨v, hv, rfl, rfl⟩ := heffect
  simp only [Inst.results, hop, List.zip_cons_cons, List.zip_nil_right, State.storeAll] at hall
  obtain ⟨s'', hdest, heq⟩ := bind_eq_some_iff.mp hall
  cases heq
  exact ⟨v, hv, State.storeDest_narrows hstore hd hdest⟩

/-- What may change a symbol falls through. -/
theorem Inst.mayChange_not_control {i : Inst} {x : String} (h : i.mayChange x = true) : i.op.isControl = false := by
  cases hop : i.op <;> first
    | rfl
    | (simp [Inst.mayChange, Inst.clobbers, Inst.writesDestination, Inst.opWritesSymbol, hop] at h)

/-- An instruction that may change a symbol falls through. -/
theorem step_of_mayChange {k : ℕ} {x : String} (hchanges : (fn.insn k).mayChange x = true) (s : State W) :
    step H fn (.at k s) = (s.exec H fn (fn.insn k)).map (.at (k + 1)) := by
  have hlen : k < fn.instructions.length := by
    by_contra hge
    rw [Function.insn, List.getD_eq_default _ _ (not_lt.mp hge)] at hchanges
    cases hchanges
  exact step_exec hlen (Inst.mayChange_not_control hchanges)

/-- In a run that goes on, an instruction that may change a symbol is executed. -/
theorem RunsTo.exec {u t k q : ℕ} {x : String} (hat : RunsTo H fn c₀ u k s)
    (hchanges : (fn.insn k).mayChange x = true) (hlt : u < t) (hreach : RunsTo H fn c₀ t q s') :
    ∃ s'', RunsTo H fn c₀ (u + 1) (k + 1) s'' ∧ s.exec H fn (fn.insn k) = some s'' := by
  obtain ⟨n, rfl⟩ := Nat.exists_eq_add_of_lt hlt
  rw [RunsTo, Nat.add_right_comm, stepN_add, bind_eq_some_iff] at hreach
  obtain ⟨c, hc, -⟩ := hreach
  have hstep := hc
  rw [stepN_add u 1, hat, bind_some] at hstep
  simp only [stepN, bind_eq_some_iff, step_of_mayChange hchanges, map_eq_some_iff] at hstep
  obtain ⟨c', ⟨s'', hexec, rfl⟩, hc'⟩ := hstep
  cases hc'
  exact ⟨s'', hc, hexec⟩

/-- A run that has come to an instruction came by another one before. -/
theorem RunsTo.prev {t q : ℕ} (h : RunsTo H fn c₀ (t + 1) q s') :
    ∃ p s, RunsTo H fn c₀ t p s ∧ step H fn (.at p s) = some (.at q s') := by
  rw [RunsTo, stepN_add t 1, bind_eq_some_iff] at h
  obtain ⟨c, hc, hstep⟩ := h
  simp only [stepN, bind_eq_some_iff] at hstep
  obtain ⟨c', hstep, hc'⟩ := hstep
  cases hc'
  cases c with
  | returned v s => cases hstep
  | «at» p s => exact ⟨p, s, hc, hstep⟩

variable {addrTaken : String → Bool}

/-- A step of an instruction that has nothing to do with the symbol keeps it. -/
theorem step_same (hlaw : H.Lawful addrTaken) {p q : ℕ} {x : String}
    (h : step H fn (.at p s) = some (.at q s')) (hleaves : (fn.insn p).leavesSymbol addrTaken x = true) :
    State.Same H s s' (.ofSymbol x) := by
  obtain ⟨-, ⟨rfl, -, -⟩ | ⟨rfl, -, -⟩ | ⟨hexec, -, -⟩⟩ := step_cases h
  · exact State.Same.refl H s' _
  · exact State.Same.refl H s' _
  -- what executes leaves the variables that it neither names nor can reach through a pointer
  simp only [Inst.leavesSymbol, Inst.clobbers, Bool.and_eq_true, Bool.not_eq_true', decide_eq_false_iff_not,
    List.mem_cons, not_or, Bool.and_eq_false_iff] at hleaves
  obtain ⟨⟨⟨hcall, hindirect, hstore, -⟩, hname⟩, hkernel⟩ := hleaves
  refine State.exec_same hlaw hexec ⟨hcall, hindirect⟩ ?_ ?_
  · rintro y hy
    cases hy
    exact hname
  · rintro (hop | hop)
    · exact absurd hop hstore
    · rcases hkernel with hnot | hnot
      · rw [hop] at hnot
        cases hnot
      · simpa [Operand.isAliasable, Operand.ofSymbol] using hnot

/-- From one time to another of a run, a symbol stays as it is when nothing that is executed has to do with it. -/
theorem RunsTo.same (hlaw : H.Lawful addrTaken) {u t p q : ℕ} {x : String} (hle : u ≤ t) (hat : RunsTo H fn c₀ u p s)
    (hat' : RunsTo H fn c₀ t q s')
    (hleaves : ∀ v p s'', u ≤ v → v < t → RunsTo H fn c₀ v p s'' → (fn.insn p).leavesSymbol addrTaken x = true) :
    State.Same H s s' (.ofSymbol x) := by
  induction t, hle using Nat.le_induction generalizing q s' with
  | base =>
    rw [RunsTo, hat, some.injEq, Config.at.injEq] at hat'
    rw [← hat'.2]
    exact State.Same.refl H s _
  | succ t hle ih =>
    obtain ⟨p', s'', hprev, hstep⟩ := hat'.prev
    refine (ih hprev fun v p s'' hv hvt => hleaves v p s'' hv (Nat.lt_succ_of_lt hvt)).trans ?_
    exact step_same hlaw hstep (hleaves t p' s'' hle (Nat.lt_succ_self t) hprev)

/-- In a run a symbol that is current holds the integer it was assigned, if nothing that `after` says is looked at
writes it. -/
theorem Current.holds (hlaw : H.Lawful addrTaken)
    (hstore : ∀ w x v w', H.storeVar w x v = some w' → H.loadVar w' x = some (G x v)) {after : ℕ → Prop} {t q : ℕ}
    {x : String} (hcur : Current H G fn c₀ addrTaken after t q x) : ∀ {s : State W} {c : BitVec 64},
    RunsTo H fn c₀ t q s → fn.Assigned q x c → (∀ p, after p → (fn.insn p).rewrites x = false) → s.Holds H G x c := by
  induction hcur with
  | @changed after t q k u x s₁ hlast hlt hat hsince hcopy hwidth ih =>
    intro s c hreach hassigned hafter
    -- the step of the last change, and what follows it
    obtain ⟨s₂, hnext, hexec⟩ := hat.exec hlast.changes hlt hreach
    have hsame : State.Same H s₂ s (.ofSymbol x) := by
      refine hnext.same hlaw hlt hreach fun v p s' huv hvt hv => ?_
      obtain ⟨hshows, hplace⟩ := hsince v p s' huv hvt hv
      have hrewrites : (fn.insn p).rewrites x = false := by
        rcases hplace with ⟨hkp, hpq⟩ | hp | hp
        · exact Inst.rewrites_of_not_mayChange (hlast.last p hkp hpq)
        · exact hafter p hp
        · exact hp
      simpa [Inst.showsWrites, hrewrites] using hshows
    refine State.Holds.same ?_ hsame
    cases hassigned with
    | int hlast' hop hlhs =>
      obtain rfl := hlast.unique hlast'
      obtain ⟨v, hv, hfetch, hnarrowed⟩ := State.exec_assign hstore hop
        (Inst.dest_of_mayChange_assign hop hlast.changes) (by rw [hlhs]; decide) hexec
      rw [State.fetch, hlhs] at hv
      cases hv
      rw [State.Holds, hfetch, hnarrowed]
    | @copy _ _ _ y _ hlast' hy hassigned =>
      -- the other symbol held the integer when it was copied
      obtain rfl := hlast.unique hlast'
      obtain ⟨v, hv, hfetch, hnarrowed⟩ := State.exec_assign hstore hy.1
        (Inst.dest_of_mayChange_assign hy.1 hlast.changes) (by rw [hy.2.1]; decide) hexec
      have hlhs : s₁.fetch H (fn.insn k).lhs = s₁.fetch H (.ofSymbol y) := by
        rw [State.fetch, State.fetch, hy.2.1, hy.2.2]
        rfl
      have hholds : s₁.fetch H (.ofSymbol y) = _ := ih y c hy hassigned hat hassigned fun _ h => h.elim
      rw [hlhs, hholds] at hv
      cases hv
      rw [State.Holds, hfetch, hnarrowed, hwidth y c hy hassigned]

/-- A mapped symbol that is current holds the integer, whatever way control took to the index; at the header of a loop
what is behind its back edge is among the instructions that are looked at. -/
theorem symbolIntMapBefore_holds (hlaw : H.Lawful addrTaken)
    (hstore : ∀ w x v w', H.storeVar w x v = some w' → H.loadVar w' x = some (G x v)) {t q : ℕ} {s : State W}
    (hat : RunsTo H fn c₀ t q s) {x : String} (hcur : Current H G fn c₀ addrTaken (fn.Behind q) t q x) {c : BitVec 64}
    (hmap : fn.symbolIntMapBefore q x = some c) : s.Holds H G x c := by
  obtain ⟨hm, hafter⟩ := Function.symbolIntMapBefore_eq_some hmap
  exact hcur.holds hlaw hstore hat (Function.assigned_of_scanBefore hm) hafter

/-! ## A loop in a loop -/

/-- Variables of 64 bits, and `y` of 32 bits, at the start of a function. -/
def locals : State Unit where
  env := fun x => some { value := .ofInt 0, size := if x = "y" then 4 else 8 }
  world := ()

/-- `n := 1; y := 7; x := y;` and twice `i := 0; while (i != 1) { i := 1 }`, counted by `n`. -/
def nestedLoop : Function where
  instructions := [
    { op := .assign, dest := .ofSymbol "n", lhs := .ofInt 1 },
    { op := .assign, dest := .ofSymbol "y", lhs := .ofInt 7 },
    { op := .assign, dest := .ofSymbol "x", lhs := .ofSymbol "y" },
    { op := .label, text := some "outer" },
    { op := .assign, dest := .ofSymbol "i", lhs := .ofInt 0 },
    { op := .label, text := some "inner" },
    { op := .branchEq, lhs := .ofSymbol "i", rhs := .ofInt 1, text := some "done" },
    { op := .assign, dest := .ofSymbol "i", lhs := .ofInt 1 },
    { op := .jump, text := some "inner" },
    { op := .label, text := some "done" },
    { op := .branchZero, lhs := .ofSymbol "n", text := some "end" },
    { op := .assign, dest := .ofSymbol "n", lhs := .ofInt 0 },
    { op := .jump, text := some "outer" },
    { op := .label, text := some "end" }]

-- `n` is written behind the back edge of the inner loop, and the second scan takes it from the map
example : nestedLoop.scanBefore 5 "n" = some 1 ∧ nestedLoop.symbolIntMapBefore 5 "n" = none := by decide

/-- The places of the run, up to where the outer loop comes to the inner one again. -/
def nestedPlaces : List ℕ := [0, 1, 2, 3, 4, 5, 6, 7, 8, 5, 6, 9, 10, 11, 12, 3, 4, 5]

/-- The way that the run of the example takes. -/
theorem nestedLoop_places : ∀ v < 18, (stepN Host.scalars nestedLoop v (.at 0 locals)).bind
    (fun | .at p _ => some p | .returned _ _ => none) = nestedPlaces[v]? := by
  decide

/-- When the outer loop comes to the inner one again, `x` still holds the 7 that it was copied from `y`. -/
theorem nestedLoop_mapped : ∃ s, RunsTo Host.scalars nestedLoop (.at 0 locals) 17 5 s ∧
    s.Holds Host.scalars (fun _ v => v) "x" 7 := by
  obtain ⟨s, hat⟩ : ∃ s, RunsTo Host.scalars nestedLoop (.at 0 locals) 17 5 s := ⟨_, rfl⟩
  have hplaces {v p : ℕ} {s' : State Unit} (hv : v < 17) (h : RunsTo Host.scalars nestedLoop (.at 0 locals) v p s') :
      p = nestedPlaces.getD v 0 := by
    have hplace := nestedLoop_places v (Nat.lt_succ_of_lt hv)
    rw [show stepN _ _ _ _ = _ from h] at hplace
    rw [List.getD_eq_getElem?_getD, ← hplace]
    rfl
  have hlastY : nestedLoop.LastChange 2 "y" 1 := ⟨by decide, by decide, fun j hj hj' => absurd hj' (by omega)⟩
  have hassignedY : nestedLoop.Assigned 2 "y" 7 := .int hlastY rfl rfl
  have hcopies {y : String} (h : (nestedLoop.insn 2).copies y) : y = "y" := (Option.some.inj h.2.2).symm
  have hcurrentY : Current Host.scalars (fun _ v => v) nestedLoop (.at 0 locals) (fun _ => false) (fun _ => False)
      2 2 "y" := by
    refine .changed hlastY Nat.one_lt_two rfl (fun v p s' hv hv' => absurd hv' (by omega)) ?_ ?_ <;>
      exact fun y c h => by cases h.2.1
  refine ⟨s, hat, symbolIntMapBefore_holds (Host.scalars_lawful fun _ => false) (fun _ _ _ _ h => by cases h) hat ?_
    (show nestedLoop.symbolIntMapBefore 5 "x" = _ by decide)⟩
  refine .changed (k := 2) (u := 2) ⟨by decide, by decide, fun j hj hj' => ?_⟩ (by decide) rfl ?_ ?_ ?_
  · obtain rfl | rfl : j = 3 ∨ j = 4 := by omega
    all_goals decide
  · intro v p s' hv hv' h
    have hshows : ∀ v < 17, 2 < v → (nestedLoop.insn (nestedPlaces.getD v 0)).showsWrites (fun _ => false) "x" = true ∧
        (8 < nestedPlaces.getD v 0 ∨ (nestedLoop.insn (nestedPlaces.getD v 0)).rewrites "x" = false) := by decide
    obtain ⟨hshow, hplace⟩ := hshows v hv' hv
    rw [hplaces hv' h]
    exact ⟨hshow, .inr (hplace.imp_left fun hlt => ⟨by decide, by decide, 8, by decide, hlt⟩)⟩
  · intro y c hcopy _
    rw [hcopies hcopy]
    exact hcurrentY
  · intro y c hcopy hassigned
    obtain rfl := hcopies hcopy
    rw [hassigned.unique hassignedY]
    rfl

/-! ## A skipped assignment -/

/-- `x := 1; if (0) { x := 2 }`: behind the skipped assignment `x` is mapped to `2` and holds `1`. -/
def skippedAssignment : Function where
  instructions := [
    { op := .assign, dest := .ofSymbol "x", lhs := .ofInt 1 },
    { op := .branchZero, lhs := .ofInt 0, text := some "end" },
    { op := .assign, dest := .ofSymbol "x", lhs := .ofInt 2 },
    { op := .label, text := some "end" }]

theorem skippedAssignment_mapped :
    ¬ ∀ t q s x c, RunsTo Host.scalars skippedAssignment (.at 0 locals) t q s →
      skippedAssignment.symbolIntMapBefore q x = some c → s.Holds Host.scalars (fun _ v => v) x c := by
  intro hall
  have hat : RunsTo Host.scalars skippedAssignment (.at 0 locals) 2 3
      ⟨Function.update locals.env "x" (some { value := .ofInt 1, size := 8 }), ()⟩ := rfl
  have hholds := hall 2 3 _ "x" 2 hat (by decide)
  have hfetch : some (Value.ofInt 1) = some (Value.ofInt 2) := hholds
  cases hfetch

end Mettle.Ir
