import Mettle.Ir.AliasTypes
import Mettle.Ir.Scopes

/-!
# What the alias classes promise

A class is mixed when the text of the program notes it with another one: for one root, in the payloads of one
tagged enum, or through inline assembly (`TypedProgram.Mixes`). Two classes are told apart exactly when neither is
mixed. So they are told apart rightly in the executions in which two accesses of one byte under different classes
point to what one root stands for and are noted for it, or are payloads of one enum. The roots of a caller and of a
callee differ, and classes that meet in a byte across a call need not be mixed.
-/

open List Function

namespace Mettle.Ir

variable {P : TypedProgram} {root : String} {c c' : AliasClass}

/-! ## Classes that are mixed -/

namespace TypedProgram

/-- The program views what a root stands for under a class. -/
def Notes (P : TypedProgram) (root : String) (c : AliasClass) : Prop :=
  ∃ fn ∈ P.functions, ∃ i ∈ fn.instructions, (root, c) ∈ P.instViews fn i

/-- The text of the program mixes a class with another one. -/
def Mixes (P : TypedProgram) (c : AliasClass) : Prop :=
  (∃ fn ∈ P.functions, ∃ i ∈ fn.instructions, i.op = .inlineAsm) ∨
    (∃ root, ∃ c' ≠ c, P.Notes root c ∧ P.Notes root c') ∨
      ∃ t ∈ P.types, t.kind = .taggedEnum ∧ ∃ p ∈ t.payloads, ∃ p' ∈ t.payloads,
        AliasClass.ofType p = c ∧ AliasClass.ofType p' ≠ c ∧ AliasClass.ofType p' ≠ .none

end TypedProgram

theorem AliasClass.mem_all (c : AliasClass) : c ∈ AliasClass.all := by
  cases c <;> decide

theorem AliasClass.nodup_all : AliasClass.all.Nodup := by decide

/-- Two classes are set. -/
theorem two_le_distinctClasses {classes : AliasClass → Bool} (hc : classes c = true) :
    2 ≤ distinctClasses classes ↔ ∃ c' ≠ c, classes c' = true := by
  have hperm := perm_cons_erase c.mem_all
  have hcount : distinctClasses classes = (AliasClass.all.erase c).countP classes + 1 := by
    rw [distinctClasses, hperm.countP_eq, countP_cons_of_pos hc]
  rw [hcount, show 2 ≤ (AliasClass.all.erase c).countP classes + 1 ↔ 0 < (AliasClass.all.erase c).countP classes by omega,
    countP_pos_iff]
  simp [AliasClass.nodup_all.mem_erase_iff, AliasClass.mem_all]

/-! ## The views -/

/-- The views have a class for a root. -/
def HasView (views : List AliasViewEntry) (root : String) (c : AliasClass) : Prop :=
  ∃ e ∈ views, e.root = root ∧ e.classes c = true

/-- The roots of the views are different. -/
def RootsOnce (views : List AliasViewEntry) : Prop := (views.map AliasViewEntry.root).Nodup

variable {views : List AliasViewEntry}

/-- The views of two lists. -/
theorem hasView_append {more : List AliasViewEntry} :
    HasView (views ++ more) root c ↔ HasView views root c ∨ HasView more root c := by
  unfold HasView
  simp only [mem_append, or_and_right, exists_or]

/-- One view more. -/
theorem hasView_cons {e : AliasViewEntry} :
    HasView (e :: views) root c ↔ (e.root = root ∧ e.classes c = true) ∨ HasView views root c := by
  unfold HasView
  simp only [mem_cons, or_and_right, exists_or, exists_eq_left]

/-- One class more of a view. -/
theorem update_classes (classes : AliasClass → Bool) (klass : AliasClass) :
    update classes klass true c = true ↔ classes c = true ∨ c = klass := by
  by_cases hc : c = klass
  · subst hc
    rw [update_self]
    exact ⟨fun _ => Or.inr rfl, fun _ => rfl⟩
  · rw [update_of_ne hc]
    exact (or_iff_left hc).symm

/-- Noting a view adds it and keeps the roots different. -/
theorem viewsNote_spec (noted : String) (h : RootsOnce views) {klass : AliasClass} (hklass : klass ≠ .none) :
    RootsOnce (viewsNote views noted klass) ∧ ∀ root c,
      HasView (viewsNote views noted klass) root c ↔ HasView views root c ∨ (root = noted ∧ c = klass) := by
  unfold viewsNote
  rw [if_neg hklass]
  split
  -- a root noted before gets the class into its entry, a new one gets an entry
  · next i hi =>
    rw [findIdx?_eq_some_iff_getElem] at hi
    obtain ⟨hlt, hroot, -⟩ := hi
    have hroot := of_decide_eq_true hroot
    obtain ⟨before, e, after, hviews, hlength, hmodify⟩ :=
      exists_of_modify (fun e : AliasViewEntry => { e with classes := update e.classes klass true }) hlt
    have he : e.root = noted := by
      rw [← hroot]
      simp [hviews, ← hlength, getElem_append_right le_rfl]
    rw [hmodify]
    constructor
    · rw [hviews] at h
      unfold RootsOnce at h ⊢
      rw [map_append, map_cons] at h ⊢
      exact h
    · intro root c
      rw [hviews, hasView_append, hasView_append, hasView_cons, hasView_cons]
      rw [update_classes, he, eq_comm (a := noted)]
      tauto
  · next hnone =>
    rw [findIdx?_eq_none_iff] at hnone
    constructor
    · rw [RootsOnce, map_append, map_singleton, ← concat_eq_append, nodup_concat]
      refine ⟨fun hmem => ?_, h⟩
      obtain ⟨e, he, heq⟩ := mem_map.mp hmem
      exact of_decide_eq_false (hnone e he) heq
    · intro root c
      rw [hasView_append, hasView_cons]
      rw [update_classes, eq_comm (a := noted)]
      have hempty : ¬ HasView [] root c := by
        rintro ⟨e, he, -⟩
        exact not_mem_nil he
      simp only [Bool.false_eq_true, false_or, hempty, or_false]

/-- Noting views in order. -/
theorem foldl_viewsNote (todo : List (String × AliasClass)) (htodo : ∀ v ∈ todo, v.2 ≠ .none) (h : RootsOnce views) :
    RootsOnce (todo.foldl (fun views v => viewsNote views v.1 v.2) views) ∧ ∀ root c,
      HasView (todo.foldl (fun views v => viewsNote views v.1 v.2) views) root c ↔
        HasView views root c ∨ (root, c) ∈ todo := by
  induction todo generalizing views with
  | nil => exact ⟨h, fun root c => by simp⟩
  | cons v todo ih =>
    obtain ⟨honce, hview⟩ := viewsNote_spec v.1 h (htodo v (.head _))
    obtain ⟨honce', hview'⟩ := ih (fun w hw => htodo w (.tail _ hw)) honce
    refine ⟨honce', fun root c => ?_⟩
    rw [foldl_cons, hview', hview, or_assoc, mem_cons, Prod.ext_iff]

namespace TypedProgram

/-- The views of an instruction have a class. -/
theorem instViews_ne_none {fn : Function} {i : Inst} : ∀ v ∈ P.instViews fn i, v.2 ≠ .none := by
  have hview : ∀ (operand : Operand) (type : Option String), ∀ v ∈
      (if P.pointeeClass type = .none then [] else [(fn.aliasViewRoot operand, P.pointeeClass type)]), v.2 ≠ .none := by
    intro operand type v hv
    split at hv
    · exact absurd hv not_mem_nil
    · next hne =>
      rw [mem_singleton.mp hv]
      exact hne
  intro v hv
  unfold instViews at hv
  split at hv
  · exact absurd hv not_mem_nil
  · rcases mem_append.mp hv with hv | hv
    · rcases mem_append.mp hv with hv | hv
      · exact hview _ _ v hv
      · split at hv
        · split at hv
          · obtain ⟨a, -, ha⟩ := mem_flatMap.mp hv
            exact hview _ _ v ha
          · exact absurd hv not_mem_nil
        · exact absurd hv not_mem_nil
    · split at hv
      · exact hview _ _ v hv
      · exact absurd hv not_mem_nil

/-- What is collected from instructions in order. -/
theorem foldl_instViews (fn : Function) (todo : List Inst) {views : List AliasViewEntry} (everything : Bool)
    (h : RootsOnce views) :
    ∃ views' everything', todo.foldl (fun (views : List AliasViewEntry × Bool) i =>
        if i.op = .inlineAsm then (views.1, true)
        else ((P.instViews fn i).foldl (fun views v => viewsNote views v.1 v.2) views.1, views.2)) (views, everything) =
          (views', everything') ∧ RootsOnce views' ∧
      (everything' = true ↔ everything = true ∨ ∃ i ∈ todo, i.op = .inlineAsm) ∧
      ∀ root c, HasView views' root c ↔ HasView views root c ∨ ∃ i ∈ todo, (root, c) ∈ P.instViews fn i := by
  induction todo generalizing views everything with
  | nil => exact ⟨views, everything, rfl, h, by simp, fun root c => by simp⟩
  | cons i todo ih =>
    rw [foldl_cons]
    by_cases hasm : i.op = .inlineAsm
    · rw [if_pos hasm]
      obtain ⟨views', everything', hfold, honce, hevery, hview⟩ := ih true h
      refine ⟨views', everything', hfold, honce, ?_, fun root c => ?_⟩
      · rw [hevery]
        simp [hasm]
      · have hnone : P.instViews fn i = [] := by rw [instViews, if_pos hasm]
        rw [hview]
        simp [hnone]
    · rw [if_neg hasm]
      obtain ⟨honce₁, hview₁⟩ := foldl_viewsNote (P.instViews fn i) instViews_ne_none h
      obtain ⟨views', everything', hfold, honce, hevery, hview⟩ := ih everything honce₁
      refine ⟨views', everything', hfold, honce, ?_, fun root c => ?_⟩
      · rw [hevery]
        simp [hasm]
      · rw [hview, hview₁, or_assoc]
        simp only [mem_cons, or_and_right, exists_or, exists_eq_left]

/-- The views that are collected are those the program notes. -/
theorem collectViews_spec : RootsOnce P.collectViews.1 ∧
    (P.collectViews.2 = true ↔ ∃ fn ∈ P.functions, ∃ i ∈ fn.instructions, i.op = .inlineAsm) ∧
    ∀ root c, HasView P.collectViews.1 root c ↔ P.Notes root c := by
  suffices hfold : ∀ (todo : List Function) (views : List AliasViewEntry) (everything : Bool), RootsOnce views →
      ∃ views' everything', todo.foldl (fun views fn =>
        fn.instructions.foldl (fun (views : List AliasViewEntry × Bool) i =>
          if i.op = .inlineAsm then (views.1, true)
          else ((P.instViews fn i).foldl (fun views v => viewsNote views v.1 v.2) views.1, views.2)) views)
            (views, everything) = (views', everything') ∧ RootsOnce views' ∧
        (everything' = true ↔ everything = true ∨ ∃ fn ∈ todo, ∃ i ∈ fn.instructions, i.op = .inlineAsm) ∧
        ∀ root c, HasView views' root c ↔
          HasView views root c ∨ ∃ fn ∈ todo, ∃ i ∈ fn.instructions, (root, c) ∈ P.instViews fn i by
    obtain ⟨views', everything', heq, honce, hevery, hview⟩ := hfold P.functions [] false nodup_nil
    rw [collectViews, heq]
    refine ⟨honce, by rw [hevery]; simp, fun root c => ?_⟩
    rw [hview, Notes]
    simp [HasView]
  intro todo
  induction todo with
  | nil => exact fun views everything h => ⟨views, everything, rfl, h, by simp, fun root c => by simp⟩
  | cons fn todo ih =>
    intro views everything h
    obtain ⟨views₁, everything₁, heq₁, honce₁, hevery₁, hview₁⟩ := foldl_instViews (P := P) fn fn.instructions
      everything h
    obtain ⟨views', everything', heq, honce, hevery, hview⟩ := ih views₁ everything₁ honce₁
    refine ⟨views', everything', ?_, honce, ?_, fun root c => ?_⟩
    · rw [foldl_cons, heq₁, heq]
    · rw [hevery, hevery₁, or_assoc]
      simp only [mem_cons, or_and_right, exists_or, exists_eq_left]
    · rw [hview, hview₁, or_assoc]
      simp only [mem_cons, or_and_right, exists_or, exists_eq_left]

/-- The payload classes of a tagged enum. -/
theorem payloadClasses_iff {t : RegisteredType} (hc : c ≠ .none) :
    payloadClasses t c = true ↔ ∃ p ∈ t.payloads, AliasClass.ofType p = c := by
  suffices hfold : ∀ (todo : List (Option TypeKind)) (seen : AliasClass → Bool),
      todo.foldl (fun seen payload => if AliasClass.ofType payload = .none then seen
        else update seen (AliasClass.ofType payload) true) seen c = true ↔
          seen c = true ∨ ∃ p ∈ todo, AliasClass.ofType p = c by
    refine (hfold t.payloads fun _ => false).trans ?_
    simp
  intro todo
  induction todo with
  | nil => exact fun seen => by simp
  | cons p todo ih =>
    intro seen
    rw [foldl_cons, ih]
    split
    · next hnone =>
      have hne : AliasClass.ofType p ≠ c := by
        rw [hnone]
        exact hc.symm
      simp [hne]
    · rw [update_classes, or_assoc, eq_comm (a := c)]
      simp

theorem payloadClasses_none (t : RegisteredType) : payloadClasses t .none = false := by
  suffices hfold : ∀ (todo : List (Option TypeKind)) (seen : AliasClass → Bool), seen .none = false →
      todo.foldl (fun seen payload => if AliasClass.ofType payload = .none then seen
        else update seen (AliasClass.ofType payload) true) seen .none = false from hfold _ _ rfl
  intro todo
  induction todo with
  | nil => exact fun seen h => h
  | cons p todo ih =>
    intro seen h
    rw [foldl_cons]
    apply ih
    split
    · exact h
    · next hne => rwa [update_of_ne (Ne.symm hne)]

/-- Sets of classes that become mixed in order. -/
theorem foldl_punnTogether {α : Type} (classes : α → AliasClass → Bool) (todo : List α) (punned : AliasClass → Bool) :
    todo.foldl (fun punned e => punnTogether punned (classes e)) punned c = true ↔
      punned c = true ∨ ∃ e ∈ todo, classes e c = true ∧ ∃ c' ≠ c, classes e c' = true := by
  induction todo generalizing punned with
  | nil => simp
  | cons e todo ih =>
    rw [foldl_cons, ih]
    have hone : punnTogether punned (classes e) c = true ↔
        punned c = true ∨ (classes e c = true ∧ ∃ c' ≠ c, classes e c' = true) := by
      unfold punnTogether
      by_cases hc : classes e c = true
      · rw [← two_le_distinctClasses hc, and_iff_right hc]
        split
        · next htwo => simp [hc, htwo]
        · next htwo => simp [htwo]
      · split <;> simp [hc]
    rw [hone, or_assoc]
    simp only [mem_cons, or_and_right, exists_or, exists_eq_left]

/-- Two classes of one view. -/
theorem mixed_views : (∃ e ∈ P.collectViews.1, e.classes c = true ∧ ∃ c' ≠ c, e.classes c' = true) ↔
    ∃ root, ∃ c' ≠ c, P.Notes root c ∧ P.Notes root c' := by
  obtain ⟨honce, -, hview⟩ := P.collectViews_spec
  constructor
  · rintro ⟨e, he, hc, c', hne, hc'⟩
    exact ⟨e.root, c', hne, (hview _ _).mp ⟨e, he, rfl, hc⟩, (hview _ _).mp ⟨e, he, rfl, hc'⟩⟩
  · rintro ⟨root, c', hne, hc, hc'⟩
    obtain ⟨e, he, hroot, hec⟩ := (hview _ _).mpr hc
    obtain ⟨e', he', hroot', hec'⟩ := (hview _ _).mpr hc'
    -- The roots are different, so both classes are in one entry.
    have heq : e = e' := inj_on_of_nodup_map honce he he' (hroot.trans hroot'.symm)
    exact ⟨e, he, hec, c', hne, heq ▸ hec'⟩

/-- Two classes of the payloads of one tagged enum. -/
theorem mixed_payloads : (∃ t ∈ P.types.filter fun t => t.kind = .taggedEnum,
      payloadClasses t c = true ∧ ∃ c' ≠ c, payloadClasses t c' = true) ↔
    c ≠ .none ∧ ∃ t ∈ P.types, t.kind = .taggedEnum ∧ ∃ p ∈ t.payloads, ∃ p' ∈ t.payloads,
      AliasClass.ofType p = c ∧ AliasClass.ofType p' ≠ c ∧ AliasClass.ofType p' ≠ .none := by
  have hne_none : ∀ {t : RegisteredType} {c}, payloadClasses t c = true → c ≠ .none := by
    rintro t c hc rfl
    rw [payloadClasses_none] at hc
    cases hc
  constructor
  · rintro ⟨t, ht, hc, c', hne, hc'⟩
    obtain ⟨htypes, htagged⟩ := mem_filter.mp ht
    obtain ⟨p, hp, hpc⟩ := (payloadClasses_iff (hne_none hc)).mp hc
    have hcnone' := hne_none hc'
    obtain ⟨p', hp', rfl⟩ := (payloadClasses_iff hcnone').mp hc'
    exact ⟨hne_none hc, t, htypes, of_decide_eq_true htagged, p, hp, p', hp', hpc, hne, hcnone'⟩
  · rintro ⟨hcnone, t, htypes, htagged, p, hp, p', hp', hpc, hne, hcnone'⟩
    exact ⟨t, mem_filter.mpr ⟨htypes, decide_eq_true htagged⟩, (payloadClasses_iff hcnone).mpr ⟨p, hp, hpc⟩,
      AliasClass.ofType p', hne, (payloadClasses_iff hcnone').mpr ⟨p', hp', rfl⟩⟩

/-- Types other than tagged enums mix nothing. -/
theorem punnOverlappingPayloads_eq (punned : AliasClass → Bool) :
    P.punnOverlappingPayloads punned = (P.types.filter fun t => t.kind = .taggedEnum).foldl
      (fun punned t => punnTogether punned (payloadClasses t)) punned := by
  unfold punnOverlappingPayloads
  generalize P.types = todo
  induction todo generalizing punned with
  | nil => rfl
  | cons t todo ih =>
    rw [foldl_cons, ih, filter_cons]
    by_cases htagged : t.kind = .taggedEnum
    · rw [if_neg (not_not.mpr htagged), if_pos (decide_eq_true htagged), foldl_cons]
    · rw [if_pos htagged, if_neg (by simpa using htagged)]

/-- A class is mixed after the facts are built when the program mixes it. -/
theorem punned_iff : P.punned c = true ↔ c = .none ∨ P.Mixes c := by
  obtain ⟨-, hevery, -⟩ := P.collectViews_spec
  unfold punned
  rw [punnOverlappingPayloads_eq, foldl_punnTogether, foldl_punnTogether (fun e : AliasViewEntry => e.classes),
    mixed_views, mixed_payloads, decide_eq_true_iff, hevery]
  unfold Mixes
  by_cases hc : c = .none <;> simp [hc, or_assoc]

end TypedProgram

/-! ## Executions -/

variable {W : Type}

/-- Where a run of a program comes by: the activations that are started, each at the depth of its calls. -/
inductive Scopes.Visits (S : Scopes W) (H : Host W) (functions : List Function) (depth : ℕ) (start : Function)
    (first : State W) : ℕ → Function → ℕ → State W → Prop
  | start : Visits S H functions depth start first depth start 0 first
  | step {n fn pc pc' s s'} : Visits S H functions depth start first n fn pc s →
      step (S.host H functions n) fn (.at pc s) = some (.at pc' s') → Visits S H functions depth start first n fn pc' s'
  | call {n fn pc s callee args s'} : Visits S H functions depth start first (n + 1) fn pc s →
      pc < fn.instructions.length → (fn.insn pc).op = .call → findFunction functions (fn.insn pc).text = some callee →
      (fn.insn pc).arguments.mapM (s.fetchArg (S.host H functions (n + 1))) = some args →
      S.enter s.world callee args = some s' → Visits S H functions depth start first n callee 0 s'
  | callIndirect {n fn pc s target callee args s'} : Visits S H functions depth start first (n + 1) fn pc s →
      pc < fn.instructions.length → (fn.insn pc).op = .callIndirect →
      s.fetchInt (S.host H functions (n + 1)) (fn.insn pc).lhs = some target →
      findFunction functions (S.resolve s.world target) = some callee →
      (fn.insn pc).arguments.mapM (s.fetchArg (S.host H functions (n + 1))) = some args →
      S.enter s.world callee args = some s' → Visits S H functions depth start first n callee 0 s'

/-- The operand with the address of an access. -/
def Inst.addressOperand (i : Inst) : Operand := if i.op = .store then i.dest else i.lhs

/-- A load or a store that accesses a byte. -/
def State.Accesses (H : Host W) (s : State W) (i : Inst) (x : BitVec 64) : Prop :=
  (i.op = .load ∨ i.op = .store) ∧ ∃ address size, s.fetchInt H i.addressOperand = some address ∧
    s.fetchInt H i.rhs = some size ∧ ∃ k < size.toNat, x = address + BitVec.ofNat 64 k

/-- A run accesses a byte under a class, through an operand of a function. -/
def Scopes.Touches (S : Scopes W) (H : Host W) (functions : List Function) (depth : ℕ) (start : Function)
    (first : State W) (klass : ℕ) (x : BitVec 64) (fn : Function) (operand : Operand) : Prop :=
  ∃ n pc s, S.Visits H functions depth start first n fn pc s ∧ pc < fn.instructions.length ∧
    (fn.insn pc).aliasClass = klass ∧ s.Accesses (S.host H functions n) (fn.insn pc) x ∧
    (fn.insn pc).addressOperand = operand

/-- Two classes are told apart when neither is mixed. -/
theorem TypedProgram.classesDistinct_iff {skipped : Bool} {a b : ℕ} :
    P.classesDistinct skipped a b = true ↔ P.functions ≠ [] ∧ skipped = false ∧ a ≠ b ∧
      ∃ ca cb, AliasClass.all[a]? = some ca ∧ AliasClass.all[b]? = some cb ∧
        ca ≠ .none ∧ cb ≠ .none ∧ ¬ P.Mixes ca ∧ ¬ P.Mixes cb := by
  unfold classesDistinct
  by_cases hbuilt : P.functions = [] ∨ skipped = true
  · rw [if_pos hbuilt]
    constructor
    · exact fun h => absurd h Bool.false_ne_true
    · rintro ⟨hne, hskip, -⟩
      rcases hbuilt with hnil | hskipped
      · exact absurd hnil hne
      · rw [hskip] at hskipped
        cases hskipped
  · rw [if_neg hbuilt]
    rw [not_or, Bool.not_eq_true] at hbuilt
    cases AliasClass.all[a]? with
    | none => simp
    | some ca =>
      cases AliasClass.all[b]? with
      | none => simp
      | some cb =>
        rw [decide_eq_true_iff, punned_iff, punned_iff]
        simp only [Option.some.injEq, exists_and_left, exists_eq_left', not_or]
        tauto

/-- An operand points to what a root stands for: its own root, or that of what it is assigned or cast from. A store
through a name counts as a definition of it, so its own root can say less. -/
def Function.PointsTo (fn : Function) (operand : Operand) (root : String) : Prop :=
  fn.aliasViewRoot operand = root ∨ ∃ i ∈ fn.instructions, (i.op = .assign ∨ i.op = .cast) ∧
    i.dest.kind = operand.kind ∧ i.dest.name = operand.name ∧ fn.aliasViewRoot i.lhs = root

/-- Payloads of one tagged enum have the two classes. -/
def TypedProgram.Overlaps (P : TypedProgram) (c c' : AliasClass) : Prop :=
  ∃ t ∈ P.types, t.kind = .taggedEnum ∧ ∃ p ∈ t.payloads, ∃ p' ∈ t.payloads,
    AliasClass.ofType p = c ∧ AliasClass.ofType p' = c'

/-- The text shows why two accesses can meet: they point to what one root stands for, and both classes are noted for
it, or they are payloads of one enum. -/
def TypedProgram.Shows (P : TypedProgram) (c c' : AliasClass) (fn : Function) (o : Operand) (fn' : Function)
    (o' : Operand) : Prop :=
  (∃ root, (fn.PointsTo o root ∧ P.Notes root c) ∧ fn'.PointsTo o' root ∧ P.Notes root c') ∨ P.Overlaps c c'

/-- The program has inline assembly. -/
def TypedProgram.HasAsm (P : TypedProgram) : Prop := ∃ fn ∈ P.functions, ∃ i ∈ fn.instructions, i.op = .inlineAsm

/-- The text shows every pun of a run: of two accesses of one byte, under different classes that are known. -/
def Scopes.PunsShown (S : Scopes W) (H : Host W) (P : TypedProgram) (depth : ℕ) (start : Function)
    (first : State W) : Prop :=
  ∀ a b x fn o fn' o', S.Touches H P.functions depth start first a x fn o →
    S.Touches H P.functions depth start first b x fn' o' → a ≠ b → ∀ c c', AliasClass.all[a]? = some c →
      AliasClass.all[b]? = some c' → c ≠ .none → c' ≠ .none → P.Shows c c' fn o fn' o'

/-- Classes that the text shows to meet are mixed. -/
theorem TypedProgram.Shows.mixes {fn fn' : Function} {o o' : Operand} (h : P.Shows c c' fn o fn' o') (hne : c ≠ c')
    (hc' : c' ≠ .none) : P.Mixes c := by
  rcases h with ⟨root, ⟨-, hnote⟩, -, hnote'⟩ | ⟨t, ht, hkind, p, hp, p', hp', rfl, rfl⟩
  · exact .inr (.inl ⟨root, c', hne.symm, hnote, hnote'⟩)
  · exact .inr (.inr ⟨t, ht, hkind, p, hp, p', hp', rfl, hne.symm, hc'⟩)

/-- `low`: it reads half of what its parameter points to. -/
def lowHalf : Function where
  name := "low"
  parameterNames := ["r"]
  parameterTypes := [some "int64*"]
  returnTypeName := some "int32"
  instructions := [
    { op := .cast, dest := .ofTemp "%t0", lhs := .ofSymbol "r", text := some "int32*" },
    { op := .load, dest := .ofTemp "%t1", lhs := .ofTemp "%t0", rhs := .ofInt 4, aliasClass := 4 },
    { op := .return, lhs := .ofTemp "%t1" }]

/-- `main`: it writes a word to the heap and passes its address. -/
def wordMain : Function where
  name := "main"
  returnTypeName := some "int32"
  instructions := [
    { op := .call, dest := .ofTemp "%t0", text := some "malloc", arguments := [.ofInt 8] },
    { op := .cast, dest := .ofTemp "%t1", lhs := .ofTemp "%t0", text := some "int64*" },
    { op := .store, dest := .ofTemp "%t1", lhs := .ofInt 5, rhs := .ofInt 8, aliasClass := 5 },
    { op := .call, dest := .ofTemp "%t2", text := some "low", arguments := [.ofTemp "%t1"] },
    { op := .return, lhs := .ofTemp "%t2" }]

/-- The program of both. -/
def halfProgram : TypedProgram where
  functions := [wordMain, lowHalf]
  types := [{ name := "int32", kind := .int32 }, { name := "int64", kind := .int64 }]

/-- A heap: the bytes, and where the next block goes. -/
structure Heap where
  next : BitVec 64
  bytes : BitVec 64 → BitVec 8

/-- The word of so many bytes at an address. -/
def Heap.read (heap : Heap) (address : BitVec 64) : ℕ → BitVec 64
  | 0 => 0
  | n + 1 => (heap.bytes address).setWidth 64 ||| (heap.read (address + 1) n <<< 8)

/-- Write so many bytes of a word. -/
def Heap.write (heap : Heap) (address : BitVec 64) (v : BitVec 64) : ℕ → Heap
  | 0 => heap
  | n + 1 => ({ heap with bytes := Function.update heap.bytes address (v.setWidth 8) } : Heap).write (address + 1)
    (v >>> 8) n

/-- The heap as a host: blocks follow each other and nothing is freed. -/
def heapHost : Host Heap where
  floats := .zero
  literal := fun _ => (0, 0)
  loadVar := fun _ _ => none
  storeVar := fun _ _ _ => none
  addressOf := fun _ _ => none
  lookupType := fun _ => none
  declareVar := fun _ _ => none
  concat := fun _ _ _ => none
  load := fun heap _ address size => some (.ofInt (heap.read address size.toNat))
  store := fun heap _ address size v _ => some (heap.write address v.i size.toNat)
  new := fun heap size => some (heap.next, { heap with next := heap.next + size })
  call := fun heap i args =>
    match i.text, args with
    | some "malloc", [.value size] => some (.ofInt heap.next, { heap with next := heap.next + size.i })
    | _, _ => none
  callIndirect := fun _ _ _ _ => none
  kernel := fun _ _ _ => none

/-- Parameters are variables of the frame. -/
def frameScopes : Scopes Heap where
  global := fun _ _ => none
  isLocal := fun _ _ => false
  enter := fun heap callee args => some {
    env := fun x => (args[callee.parameterNames.idxOf x]?).bind fun arg =>
      match arg with
      | .value v => some { value := v, size := 8 }
      | .literal _ => none
    world := heap }
  leave := fun _ heap => heap
  resolve := fun _ _ => none

/-- The state in which `main` starts. -/
def heapStart : State Heap where
  env := fun _ => none
  world := { next := 4096, bytes := fun _ => 0 }

/-- `main` that looks at both halves itself: two casts of one block. -/
def bothMain : Function where
  name := "main"
  returnTypeName := some "int32"
  instructions := [
    { op := .call, dest := .ofTemp "%t0", text := some "malloc", arguments := [.ofInt 8] },
    { op := .cast, dest := .ofTemp "%t1", lhs := .ofTemp "%t0", text := some "int64*" },
    { op := .store, dest := .ofTemp "%t1", lhs := .ofInt 5, rhs := .ofInt 8, aliasClass := 5 },
    { op := .cast, dest := .ofTemp "%t2", lhs := .ofTemp "%t0", text := some "int32*" },
    { op := .load, dest := .ofTemp "%t3", lhs := .ofTemp "%t2", rhs := .ofInt 4, aliasClass := 4 },
    { op := .return, lhs := .ofTemp "%t3" }]

/-- The program of it. -/
def bothProgram : TypedProgram where
  functions := [bothMain]
  types := [{ name := "int32", kind := .int32 }, { name := "int64", kind := .int64 }]

/-- The run stays in `main`: its only call leaves the program. -/
theorem bothMain_visits {n : ℕ} {fn : Function} {pc : ℕ} {s : State Heap}
    (h : frameScopes.Visits heapHost bothProgram.functions 1 bothMain heapStart n fn pc s) : fn = bothMain := by
  have hcalls : ∀ pc < bothMain.instructions.length, (bothMain.insn pc).op ≠ .callIndirect ∧
      findFunction bothProgram.functions (bothMain.insn pc).text = none := by decide
  induction h with
  | start => rfl
  | step _ _ ih => exact ih
  | call _ hpc _ hfind _ _ ih =>
    subst ih
    rw [(hcalls _ hpc).2] at hfind
    cases hfind
  | callIndirect _ hpc hop _ _ _ _ ih =>
    subst ih
    exact absurd hop (hcalls _ hpc).1

/-- Its accesses go through the block, for which the casts note both classes. -/
theorem bothMain_touches {a : ℕ} {x : BitVec 64} {fn : Function} {o : Operand} {c : AliasClass}
    (hc : AliasClass.all[a]? = some c) (hknown : c ≠ .none)
    (h : frameScopes.Touches heapHost bothProgram.functions 1 bothMain heapStart a x fn o) :
    fn.PointsTo o "alloc@main#0" ∧ bothProgram.Notes "alloc@main#0" c := by
  obtain ⟨n, pc, s, hvisits, hpc, rfl, -, rfl⟩ := h
  obtain rfl := bothMain_visits hvisits
  have hpcs : ∀ pc < bothMain.instructions.length, (bothMain.insn pc).aliasClass ≠ 0 → pc = 2 ∨ pc = 4 := by decide
  have ha : (bothMain.insn pc).aliasClass ≠ 0 := by
    intro ha
    rw [ha] at hc
    exact hknown (Option.some.inj hc).symm
  -- the cast before the access notes its class for the block
  have hcast {c : AliasClass} {o : Operand} (k : ℕ) (hk : k < bothMain.instructions.length)
      (hop : (bothMain.insn k).op = .cast ∧ (bothMain.insn k).dest = o)
      (hroot : bothMain.aliasViewRoot (bothMain.insn k).lhs = "alloc@main#0")
      (hview : ("alloc@main#0", c) ∈ bothProgram.instViews bothMain (bothMain.insn k)) :
      bothMain.PointsTo o "alloc@main#0" ∧ bothProgram.Notes "alloc@main#0" c := by
    have hmem : bothMain.insn k ∈ bothMain.instructions := by simp [Function.insn, hk]
    exact ⟨.inr ⟨_, hmem, .inr hop.1, by rw [hop.2], by rw [hop.2], hroot⟩, ⟨bothMain, .head _, _, hmem, hview⟩⟩
  rcases hpcs pc hpc ha with rfl | rfl
  · obtain rfl : AliasClass.i64 = c := Option.some.inj hc
    exact hcast 1 (by decide) (by decide) (by decide) (by decide)
  · obtain rfl : AliasClass.i32 = c := Option.some.inj hc
    exact hcast 3 (by decide) (by decide) (by decide) (by decide)

/-- The classes of the example are taken for distinct. -/
theorem halfProgram_distinct : halfProgram.classesDistinct false 5 4 = true := by decide

end Mettle.Ir
