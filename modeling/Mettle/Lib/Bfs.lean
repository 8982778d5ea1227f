import Mathlib

/-!
# Breadth-first search with parent indices

A queue that is never shortened holds every node that was reached, with the edge it was reached over and the
index of the node it was reached from. The search stops at the first terminal node, and the walk back along the
parents is a trail of the least length.
-/

open List Option Function

namespace Mettle.Lib

/-- An entry of the queue. -/
structure Hop (ι σ : Type*) where
  node : ι
  via : Option σ := none
  parent : Option ℕ := none
  deriving DecidableEq

/-- The labelled edges of a graph and the nodes that are looked for. -/
structure Bfs (ι σ : Type*) where
  edges : ι → List (ι × σ)
  terminal : ι → Bool

namespace Bfs

variable {ι σ : Type*} [DecidableEq ι]

/-- The queue and the marks of the nodes in it. -/
structure State (ι σ : Type*) where
  queue : List (Hop ι σ)
  seen : ι → Bool

/-- Only the start is reached. -/
def State.start (x : ι) : State ι σ := ⟨[{ node := x }], fun y => decide (y = x)⟩

/-- Put the end of an edge in the queue, if it is not marked and there is room. -/
def State.push (room head : ℕ) (s : State ι σ) (e : ι × σ) : State ι σ :=
  if s.queue.length < room ∧ s.seen e.1 = false then
    ⟨s.queue ++ [⟨e.1, some e.2, some head⟩], Function.update s.seen e.1 true⟩
  else s

variable (G : Bfs ι σ)

/-- Take the entries of the queue one after the other. -/
def loop (room : ℕ) : ℕ → ℕ → State ι σ → Option ℕ × State ι σ
  | 0, _, s => (none, s)
  | fuel + 1, head, s =>
    match s.queue[head]? with
    | none => (none, s)
    | some hop =>
      if G.terminal hop.node then (some head, s)
      else loop room fuel (head + 1) ((G.edges hop.node).foldl (State.push room head) s)

omit [DecidableEq ι] in
/-- The walk back along the parents, in the order from the start. -/
def walk (queue : List (Hop ι σ)) : ℕ → ℕ → List (Hop ι σ)
  | 0, _ => []
  | fuel + 1, at_ =>
    match queue[at_]? with
    | none => []
    | some hop =>
      match hop.parent with
      | some parent => walk queue fuel parent ++ [hop]
      | none => [hop]

/-- The trail that the search finds; none, no trail. -/
def search (room : ℕ) (x : ι) : List (Hop ι σ) :=
  match G.loop room room 0 (.start x) with
  | (some at_, s) => walk s.queue (at_ + 1) at_
  | (none, _) => []

omit [DecidableEq ι] in
/-- The hops of a trail from `x`, each over an edge from the one before. -/
inductive Trail (x : ι) : List (Hop ι σ) → ι → Prop
  | start {h : Hop ι σ} : h.node = x → Trail x [h] x
  | snoc {hops : List (Hop ι σ)} {y : ι} {h : Hop ι σ} {site : σ} : Trail x hops y →
      (h.node, site) ∈ G.edges y → h.via = some site → Trail x (hops ++ [h]) h.node

variable {G} {room head : ℕ} {x : ι} {s : State ι σ} {d : ℕ → ℕ}

/-- What the search keeps; `d` is the number of hops from the start. The entries before `head` are not terminal
and their edges end in the queue, at most one hop further; from `head` on no entry is more than one hop behind
another. -/
structure Inv (G : Bfs ι σ) (x : ι) (U : Finset ι) (s : State ι σ) (d : ℕ → ℕ) (head : ℕ) : Prop where
  root : ∃ h : Hop ι σ, s.queue[0]? = some h ∧ h.node = x ∧ h.parent = none ∧ d 0 = 0
  parent : ∀ j hop, s.queue[j]? = some hop → 0 < j → ∃ p up site, hop.parent = some p ∧ p < j ∧
    s.queue[p]? = some up ∧ hop.via = some site ∧ (hop.node, site) ∈ G.edges up.node ∧ d j = d p + 1
  nodup : (s.queue.map Hop.node).Nodup
  seen : ∀ y, s.seen y = true ↔ y ∈ s.queue.map Hop.node
  inside : ∀ y ∈ s.queue.map Hop.node, y ∈ U
  mono : ∀ i j, i ≤ j → j < s.queue.length → d i ≤ d j
  spread : ∀ i j, head ≤ i → i < s.queue.length → j < s.queue.length → d j ≤ d i + 1
  expanded : ∀ i hop, i < head → s.queue[i]? = some hop → G.terminal hop.node = false ∧
    ∀ e ∈ G.edges hop.node, ∃ j h', s.queue[j]? = some h' ∧ h'.node = e.1 ∧ d j ≤ d i + 1

variable {U : Finset ι} {hop : Hop ι σ}

/-- The invariant holds of the start. -/
theorem Inv.start (hx : x ∈ U) : G.Inv x U (.start x) (fun _ => 0) 0 where
  root := ⟨_, rfl, rfl, rfl, rfl⟩
  parent j hop hj hpos := by
    obtain ⟨hlt, -⟩ := List.getElem?_eq_some_iff.mp hj
    simp only [State.start, length_singleton] at hlt
    omega
  nodup := nodup_singleton _
  seen y := by simp [State.start]
  inside y hy := by
    rw [State.start, map_singleton, mem_singleton] at hy
    exact hy ▸ hx
  mono _ _ _ _ := le_rfl
  spread _ _ _ _ _ := Nat.zero_le _
  expanded _ _ h := absurd h (Nat.not_lt_zero _)

/-- The queue is not longer than there are nodes. -/
theorem Inv.length_le (h : G.Inv x U s d head) : s.queue.length ≤ U.card := by
  rw [← length_map (f := Hop.node), ← toFinset_card_of_nodup h.nodup]
  exact Finset.card_le_card fun y hy => h.inside y (List.mem_toFinset.mp hy)

omit [DecidableEq ι] in
theorem head_lt (hhop : s.queue[head]? = some hop) : head < s.queue.length :=
  (List.getElem?_eq_some_iff.mp hhop).1

/-- One edge of the entry at the head. -/
theorem Inv.push (h : G.Inv x U s d head) (hroom : U.card ≤ room) (hhop : s.queue[head]? = some hop) {e : ι × σ}
    (he : e ∈ G.edges hop.node) (hU : e.1 ∈ U) :
    ∃ d', G.Inv x U (s.push room head e) d' head ∧ (∀ i, i < s.queue.length → d' i = d i) ∧
      s.queue <+: (s.push room head e).queue ∧ e.1 ∈ (s.push room head e).queue.map Hop.node := by
  have hhead := head_lt hhop
  unfold State.push
  by_cases hseen : s.seen e.1 = false
  · have hnew : e.1 ∉ s.queue.map Hop.node := by
      rw [← h.seen, hseen]
      exact Bool.false_ne_true
    -- the queue with the new node is still a list of distinct nodes of `U`, so there is room
    have hlt : s.queue.length < room := by
      refine lt_of_lt_of_le ?_ hroom
      have hnodup : (e.1 :: s.queue.map Hop.node).Nodup := nodup_cons.mpr ⟨hnew, h.nodup⟩
      calc s.queue.length < (e.1 :: s.queue.map Hop.node).length := by simp
        _ = (e.1 :: s.queue.map Hop.node).toFinset.card := (toFinset_card_of_nodup hnodup).symm
        _ ≤ U.card := Finset.card_le_card fun y hy => by
          rcases mem_cons.mp (List.mem_toFinset.mp hy) with rfl | hy
          · exact hU
          · exact h.inside y hy
    rw [if_pos ⟨hlt, hseen⟩]
    refine ⟨update d s.queue.length (d head + 1), ?_, fun i hi => update_of_ne hi.ne _ _,
      prefix_append _ _, by simp⟩
    have hold : ∀ i, i < s.queue.length → update d s.queue.length (d head + 1) i = d i :=
      fun i hi => update_of_ne hi.ne _ _
    have hnewd : update d s.queue.length (d head + 1) s.queue.length = d head + 1 :=
      update_self ..
    have hget : ∀ i h', i < s.queue.length →
        ((s.queue ++ [⟨e.1, some e.2, some head⟩])[i]? = some h' ↔ s.queue[i]? = some h') := by
      intro i h' hi
      rw [List.getElem?_append_left hi]
    have hlast : (s.queue ++ [(⟨e.1, some e.2, some head⟩ : Hop ι σ)])[s.queue.length]? =
        some ⟨e.1, some e.2, some head⟩ := by simp
    have hsplit : ∀ i, i < (s.queue ++ [(⟨e.1, some e.2, some head⟩ : Hop ι σ)]).length →
        i < s.queue.length ∨ i = s.queue.length := by
      intro i hi
      rw [length_append, length_singleton] at hi
      omega
    refine ⟨?_, ?_, ?_, ?_, ?_, ?_, ?_, ?_⟩
    · obtain ⟨r, hr, hx, hparent, hzero⟩ := h.root
      have hpos : 0 < s.queue.length := by omega
      exact ⟨r, (hget 0 r hpos).mpr hr, hx, hparent, (hold 0 hpos).trans hzero⟩
    · intro j h' hj hpos
      rcases hsplit j (List.getElem?_eq_some_iff.mp hj).1 with hjl | rfl
      · obtain ⟨p, up, site, hp, hpj, hup, hvia, hedge, hd⟩ := h.parent j h' ((hget j h' hjl).mp hj) hpos
        exact ⟨p, up, site, hp, hpj, (hget p up (hpj.trans hjl)).mpr hup, hvia, hedge,
          by rw [hold j hjl, hold p (hpj.trans hjl), hd]⟩
      · rw [hlast] at hj
        cases hj
        exact ⟨head, hop, e.2, rfl, hhead, (hget head hop hhead).mpr hhop, rfl, he,
          by rw [hnewd, hold head hhead]⟩
    · rw [map_append, nodup_append]
      refine ⟨h.nodup, nodup_singleton _, fun a ha b hb => ?_⟩
      rw [map_singleton, mem_singleton] at hb
      subst hb
      rintro (rfl : a = e.1)
      exact hnew ha
    · intro y
      rw [map_append, mem_append, ← h.seen y, map_singleton, mem_singleton]
      show update s.seen e.1 true y = true ↔ s.seen y = true ∨ y = e.1
      by_cases hy : y = e.1
      · rw [hy, update_self]
        simp
      · rw [update_of_ne hy]
        simp [hy]
    · intro y hy
      rw [map_append, mem_append, map_singleton, mem_singleton] at hy
      rcases hy with hy | rfl
      · exact h.inside y hy
      · exact hU
    · intro i j hij hj
      rcases hsplit j hj with hjl | rfl
      · rw [hold i (by omega), hold j hjl]
        exact h.mono i j hij hjl
      · rcases Nat.lt_or_eq_of_le hij with hi | rfl
        · rw [hnewd, hold i hi]
          exact h.spread head i le_rfl hhead hi
        · exact le_rfl
    · intro i j hi hil hjl
      have hback : d head + 1 ≤ update d s.queue.length (d head + 1) i + 1 := by
        rcases hsplit i hil with hi' | rfl
        · rw [hold i hi']
          exact Nat.succ_le_succ (h.mono head i hi hi')
        · rw [hnewd]
          omega
      rcases hsplit j hjl with hj' | rfl
      · rw [hold j hj']
        exact (h.spread head j le_rfl hhead hj').trans hback
      · rw [hnewd]
        exact hback
    · intro i h' hi hget'
      have hil : i < s.queue.length := hi.trans hhead
      obtain ⟨hterminal, hedges⟩ := h.expanded i h' hi ((hget i h' hil).mp hget')
      refine ⟨hterminal, fun e' he' => ?_⟩
      obtain ⟨j, h'', hj, hnode, hd⟩ := hedges e' he'
      have hjl := (List.getElem?_eq_some_iff.mp hj).1
      exact ⟨j, h'', (hget j h'' hjl).mpr hj, hnode, by rw [hold i hil, hold j hjl]; exact hd⟩
  · rw [if_neg fun hcon => hseen hcon.2]
    rw [Bool.not_eq_false] at hseen
    exact ⟨d, h, fun _ _ => rfl, prefix_rfl, (h.seen e.1).mp hseen⟩

omit [DecidableEq ι] in
/-- The queue only grows at its end. -/
theorem getElem?_of_begins {l l' : List (Hop ι σ)} (h : l <+: l') {i : ℕ} {a : Hop ι σ} (ha : l[i]? = some a) :
    l'[i]? = some a := by
  obtain ⟨rest, rfl⟩ := h
  rw [List.getElem?_append_left (List.getElem?_eq_some_iff.mp ha).1, ha]

/-- All edges of the entry at the head. -/
theorem Inv.pushAll (h : G.Inv x U s d head) (hroom : U.card ≤ room) (hhop : s.queue[head]? = some hop)
    {es : List (ι × σ)} (hes : ∀ e ∈ es, e ∈ G.edges hop.node ∧ e.1 ∈ U) :
    ∃ d', G.Inv x U (es.foldl (State.push room head) s) d' head ∧
      s.queue <+: (es.foldl (State.push room head) s).queue ∧
      ∀ e ∈ es, e.1 ∈ (es.foldl (State.push room head) s).queue.map Hop.node := by
  induction es generalizing s d with
  | nil => exact ⟨d, h, prefix_rfl, fun _ he => absurd he not_mem_nil⟩
  | cons e es ih =>
    obtain ⟨hedge, hU⟩ := hes e mem_cons_self
    obtain ⟨d₁, hinv, -, hbegins, hmem⟩ := h.push hroom hhop hedge hU
    obtain ⟨d', hinv', hbegins', hmem'⟩ := ih hinv (getElem?_of_begins hbegins hhop) fun e' he' =>
      hes e' (.tail _ he')
    refine ⟨d', hinv', hbegins.trans hbegins', fun e' he' => ?_⟩
    rcases mem_cons.mp he' with rfl | he'
    · exact (hbegins'.map Hop.node).subset hmem
    · exact hmem' e' he'

/-- The entry at the head, expanded. -/
theorem Inv.expand (h : G.Inv x U s d head) (hroom : U.card ≤ room) (hclosed : ∀ y ∈ U, ∀ e ∈ G.edges y, e.1 ∈ U)
    (hhop : s.queue[head]? = some hop) (hterminal : G.terminal hop.node = false) :
    ∃ d', G.Inv x U ((G.edges hop.node).foldl (State.push room head) s) d' (head + 1) := by
  have hinside : hop.node ∈ U := h.inside _ (List.mem_map_of_mem (mem_of_getElem? hhop))
  obtain ⟨d', hinv, hbegins, hmem⟩ := h.pushAll hroom hhop fun e he => ⟨he, hclosed _ hinside e he⟩
  have hhop' := getElem?_of_begins hbegins hhop
  have hhead := head_lt hhop'
  refine ⟨d', hinv.root, hinv.parent, hinv.nodup, hinv.seen, hinv.inside, hinv.mono, fun i j hi hil hjl => ?_,
    fun i h' hi hget => ?_⟩
  · exact hinv.spread i j (by omega) hil hjl
  · rcases Nat.lt_or_eq_of_le (Nat.le_of_lt_succ hi) with hi | rfl
    · exact hinv.expanded i h' hi hget
    · obtain rfl := some.inj (hhop'.symm.trans hget)
      refine ⟨hterminal, fun e he => ?_⟩
      obtain ⟨h'', hh'', hnode⟩ := List.mem_map.mp (hmem e he)
      obtain ⟨j, hj⟩ := mem_iff_getElem?.mp hh''
      exact ⟨j, h'', hj, hnode, hinv.spread i j le_rfl hhead (head_lt hj)⟩

variable {fuel : ℕ} {hops : List (Hop ι σ)} {y : ι}

/-- How the loop ends: at the first terminal entry, or with every entry expanded. -/
theorem Inv.loop (h : G.Inv x U s d head) (hroom : U.card ≤ room) (hclosed : ∀ y ∈ U, ∀ e ∈ G.edges y, e.1 ∈ U)
    (hfuel : U.card ≤ head + fuel) :
    ∃ d' head', G.Inv x U (G.loop room fuel head s).2 d' head' ∧
      match (G.loop room fuel head s).1 with
      | some at_ => at_ = head' ∧ ∃ hop, (G.loop room fuel head s).2.queue[at_]? = some hop ∧
          G.terminal hop.node = true
      | none => (G.loop room fuel head s).2.queue.length ≤ head' := by
  induction fuel generalizing s d head with
  | zero => exact ⟨d, head, h, h.length_le.trans hfuel⟩
  | succ fuel ih =>
    unfold Bfs.loop
    split
    · rename_i hnone
      exact ⟨d, head, h, List.getElem?_eq_none_iff.mp hnone⟩
    · rename_i hop hhop
      split
      · rename_i hterminal
        exact ⟨d, head, h, rfl, hop, hhop, hterminal⟩
      · rename_i hterminal
        obtain ⟨d', hinv⟩ := h.expand hroom hclosed hhop (Bool.not_eq_true _ ▸ hterminal)
        exact ih hinv (by omega)

/-! ## Trails -/

omit [DecidableEq ι] in
/-- The walk back from an entry is a trail to it, as long as its distance says. -/
theorem Inv.walk (h : G.Inv x U s d head) {at_ : ℕ} (hat : s.queue[at_]? = some hop) (hfuel : at_ < fuel) :
    G.Trail x (walk s.queue fuel at_) hop.node ∧ (Bfs.walk s.queue fuel at_).length = d at_ + 1 := by
  induction fuel generalizing at_ hop with
  | zero => omega
  | succ fuel ih =>
    unfold Bfs.walk
    rw [hat]
    dsimp only
    rcases Nat.eq_zero_or_pos at_ with rfl | hpos
    · obtain ⟨r, hr, hx, hparent, hzero⟩ := h.root
      obtain rfl := some.inj (hr.symm.trans hat)
      rw [hparent, hzero]
      rw [hx]
      exact ⟨.start hx, rfl⟩
    · obtain ⟨p, up, site, hp, hpj, hup, hvia, hedge, hd⟩ := h.parent at_ hop hat hpos
      rw [hp]
      obtain ⟨htrail, hlength⟩ := ih hup (by omega)
      exact ⟨.snoc htrail hedge hvia, by rw [length_append, hlength, hd, length_singleton]⟩

omit [DecidableEq ι] in
/-- A trail from the start leaves the expanded entries only over entries that are no further. -/
theorem Inv.reached (h : G.Inv x U s d head) (htrail : G.Trail x hops y) :
    (∃ j hop, s.queue[j]? = some hop ∧ hop.node = y ∧ d j + 1 ≤ hops.length) ∨
      head < s.queue.length ∧ d head + 1 ≤ hops.length := by
  induction htrail with
  | start _ =>
    obtain ⟨r, hr, hx, -, hzero⟩ := h.root
    exact .inl ⟨0, r, hr, hx, by simp [hzero]⟩
  | @snoc hops y hop' site htrail hedge hvia ih =>
    rw [length_append, length_singleton]
    rcases ih with ⟨j, hop, hj, rfl, hd⟩ | ⟨hlt, hd⟩
    · rcases lt_or_ge j head with hjh | hjh
      · obtain ⟨k, h', hk, hnode, hdk⟩ := (h.expanded j hop hjh hj).2 _ hedge
        exact .inl ⟨k, h', hk, hnode, by omega⟩
      · have hjl := head_lt hj
        have hmono := h.mono head j hjh hjl
        exact .inr ⟨by omega, by omega⟩
    · exact .inr ⟨hlt, by omega⟩

omit [DecidableEq ι] in
/-- A trail as a list: its first and its last node, and an edge from every hop to the next. -/
theorem trail_iff :
    G.Trail x hops y ↔ hops.head?.map Hop.node = some x ∧ hops.getLast?.map Hop.node = some y ∧
      hops.IsChain fun h h' => ∃ site, h'.via = some site ∧ (h'.node, site) ∈ G.edges h.node := by
  constructor
  · intro h
    -- on the trail; conversely on the hops from the last
    induction h with
    | start hx => exact ⟨congrArg some hx, congrArg some hx, isChain_singleton _⟩
    | @snoc hops y hop site htrail hedge hvia ih =>
      obtain ⟨hhead, hlast, hchain⟩ := ih
      have hne : hops ≠ [] := by
        rintro rfl
        cases hhead
      refine ⟨?_, by simp, ?_⟩
      · rw [head?_append_of_ne_nil _ hne]
        exact hhead
      · rw [isChain_append]
        refine ⟨hchain, isChain_singleton _, fun h hh h' hh' => ?_⟩
        rw [mem_def.mp hh, map_some, some.injEq] at hlast
        cases hh'
        exact ⟨site, hvia, hlast ▸ hedge⟩
  · induction hops using reverseRecOn generalizing y with
    | nil => exact fun h => by cases h.1
    | append_singleton hops hop ih =>
      rintro ⟨hhead, hlast, hchain⟩
      rw [getLast?_concat, map_some, some.injEq] at hlast
      subst hlast
      rcases eq_nil_or_concat' hops with rfl | ⟨front, last, rfl⟩
      · have hx : hop.node = x := some.inj hhead
        rw [← hx]
        exact .start rfl
      · rw [isChain_append] at hchain
        obtain ⟨site, hvia, hedge⟩ := hchain.2.2 last (by simp) hop (by simp)
        refine .snoc (ih ⟨?_, by simp, hchain.1⟩) hedge hvia
        rw [head?_append_of_ne_nil _ (by simp)] at hhead
        exact hhead

/-- The search finds a trail of the least length to a terminal node, and none only if there is none. -/
theorem search_spec (hx : x ∈ U) (hroom : U.card ≤ room) (hclosed : ∀ y ∈ U, ∀ e ∈ G.edges y, e.1 ∈ U) :
    (∃ y, G.Trail x (G.search room x) y ∧ G.terminal y = true ∧
      ∀ hops z, G.Trail x hops z → G.terminal z = true → (G.search room x).length ≤ hops.length) ∨
    (G.search room x = [] ∧ ∀ hops z, G.Trail x hops z → G.terminal z = false) := by
  obtain ⟨d, head, hinv, hend⟩ := (Inv.start (G := G) hx).loop hroom hclosed (show U.card ≤ 0 + room by omega)
  unfold search
  cases hloop : G.loop room room 0 (.start x) with
  | mk found s =>
    rw [hloop] at hinv hend
    cases found with
    | some at_ =>
      obtain ⟨rfl, hop, hhop, hterminal⟩ := hend
      obtain ⟨htrail, hlength⟩ := hinv.walk hhop (Nat.lt_succ_self at_)
      refine .inl ⟨hop.node, htrail, hterminal, fun hops z hz hterm => ?_⟩
      rw [hlength]
      rcases hinv.reached hz with ⟨j, h', hj, rfl, hd⟩ | ⟨-, hd⟩
      · rcases lt_or_ge j at_ with hlt | hge
        · rw [(hinv.expanded j h' hlt hj).1] at hterm
          cases hterm
        · exact (Nat.succ_le_succ (hinv.mono at_ j hge (head_lt hj))).trans hd
      · exact hd
    | none =>
      refine .inr ⟨rfl, fun hops z hz => ?_⟩
      rcases hinv.reached hz with ⟨j, h', hj, rfl, -⟩ | ⟨hlt, -⟩
      · exact (hinv.expanded j h' (lt_of_lt_of_le (head_lt hj) hend) hj).1
      · exact absurd hend (not_le.mpr hlt)

end Bfs

end Mettle.Lib
