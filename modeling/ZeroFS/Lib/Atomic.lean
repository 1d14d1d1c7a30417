import ZeroFS.Lib.Machine
import ZeroFS.Lib.Table

/-!
# Programs over one atomic word

Tasks run programs that load a shared word, compare-exchange it and sample an environment, one access at a step.
`Prog.Swaps` bounds the exchanges of a program and `Prog.Ensures` says what it has seen when it returns; `reach_inv`
carries both to every run.
-/

namespace Atomic

open List Option

variable {W E Op R : Type}

/-- A program. `enter op none` goes on as `op`, `enter op (some r)` runs `op` and then returns `r`. -/
inductive Prog (W E Op R : Type)
  | ret (r : R)
  | load (k : W → Prog W E Op R)
  | compareExchange (old new : W) (k : Bool → Prog W E Op R)
  | sample (k : E → Prog W E Op R)
  | enter (op : Op) (r : Option R)

/-- What one access showed. -/
inductive Obs (W E : Type)
  | loaded (w : W)
  | swapped (old new : W)
  | sampled (e : E)

/-- A call that is running: `answer` is its result if that is settled already. -/
structure Call (W E Op R : Type) where
  op : Op
  prog : Prog W E Op R
  answer : Option R
  began : Nat
  seen : List (Nat × Obs W E)

/-- A call that has returned. -/
structure Done (W E Op R : Type) where
  op : Op
  began : Nat
  ended : Nat
  seen : List (Nat × Obs W E)
  result : R

/-- A compare-exchange that succeeded. -/
structure Swap (W Op : Type) where
  op : Op
  time : Nat
  old : W
  new : W

/-- The word and the environment, the tasks, and the history: `past` is the word before each step so far. -/
structure Sys (W E Op R : Type) where
  word : W
  env : E
  calls : Table Nat (Call W E Op R)
  done : List (Done W E Op R)
  swaps : List (Swap W Op)
  past : List W

inductive Action (E Op : Type)
  | call (tid : Nat) (op : Op)
  | run (tid : Nat)
  | env (e : E)

namespace Sys

def boot (word : W) (env : E) : Sys W E Op R := ⟨word, env, Table.empty, [], [], []⟩

/-- The number of steps so far. -/
def time (s : Sys W E Op R) : Nat := s.past.length

/-- The word before each step so far, and now. -/
def words (s : Sys W E Op R) : List W := s.past ++ [s.word]

/-- The call goes on after an access. -/
def see (s : Sys W E Op R) (tid : Nat) (c : Call W E Op R) (o : Obs W E) (p : Prog W E Op R) : Sys W E Op R :=
  { s with
    calls := s.calls.put tid { c with prog := p, seen := c.seen ++ [(s.time, o)] }
    past := s.past ++ [s.word] }

/-- The call goes on without having seen anything. -/
def skip (s : Sys W E Op R) (tid : Nat) (c : Call W E Op R) : Sys W E Op R :=
  { s with calls := s.calls.put tid c, past := s.past ++ [s.word] }

variable [DecidableEq W] (body : Op → Prog W E Op R)

/-- One access of a call. -/
def exec (s : Sys W E Op R) (tid : Nat) (c : Call W E Op R) : Sys W E Op R :=
  match c.prog with
  | .ret r =>
    { s with
      calls := s.calls.del tid
      done := s.done ++ [⟨c.op, c.began, s.time, c.seen, c.answer.getD r⟩]
      past := s.past ++ [s.word] }
  | .load k => s.see tid c (.loaded s.word) (k s.word)
  | .compareExchange old new k =>
    if s.word = old then
      { s.see tid c (.swapped old new) (k true) with word := new, swaps := s.swaps ++ [⟨c.op, s.time, old, new⟩] }
    else s.skip tid { c with prog := k false }
  | .sample k => s.see tid c (.sampled s.env) (k s.env)
  | .enter op r => s.skip tid { c with prog := body op, answer := c.answer.or r }

/-- `moves` says how the environment may change. -/
def step (moves : E → E → Bool) (s : Sys W E Op R) : Action E Op → Option (Sys W E Op R)
  | .call tid op =>
    if (s.calls.get tid).isSome then none else some (s.skip tid ⟨op, body op, none, s.time, []⟩)
  | .run tid => (s.calls.get tid).map (s.exec body tid)
  | .env e => if moves s.env e then some { s with env := e, past := s.past ++ [s.word] } else none

end Sys

/-! ## What a program does -/

namespace Prog

/-- Every exchange of the program is in `A`, and every operation it enters makes only exchanges in `A`. -/
def Swaps (allowed : Op → W → W → Prop) (A : W → W → Prop) : Prog W E Op R → Prop
  | ret _ => True
  | load k => ∀ w, (k w).Swaps allowed A
  | compareExchange old new k => A old new ∧ ∀ b, (k b).Swaps allowed A
  | sample k => ∀ e, (k e).Swaps allowed A
  | enter op _ => ∀ old new, allowed op old new → A old new

/-- When the program returns, `Q` holds of what was seen and of the result. -/
def Ensures (spec : Op → List (Obs W E) → R → Prop) (Q : List (Obs W E) → R → Prop) :
    Prog W E Op R → List (Obs W E) → Prop
  | ret r, l => Q l r
  | load k, l => ∀ w, (k w).Ensures spec Q (l ++ [.loaded w])
  | compareExchange old new k, l => (k true).Ensures spec Q (l ++ [.swapped old new]) ∧ (k false).Ensures spec Q l
  | sample k, l => ∀ e, (k e).Ensures spec Q (l ++ [.sampled e])
  | enter op none, _ => ∀ l' r, spec op l' r → Q l' r
  | enter _ (some r), l => ∀ l', l ⊆ l' → Q l' r

variable {allowed : Op → W → W → Prop} {A B : W → W → Prop} {spec : Op → List (Obs W E) → R → Prop}
  {Q Q' : List (Obs W E) → R → Prop} {p : Prog W E Op R}

theorem Swaps.mono (hAB : ∀ old new, A old new → B old new) (h : p.Swaps allowed A) : p.Swaps allowed B := by
  induction p with
  | ret r => trivial
  | load k ih => exact fun w => ih w (h w)
  | compareExchange old new k ih => exact ⟨hAB _ _ h.1, fun b => ih b (h.2 b)⟩
  | sample k ih => exact fun e => ih e (h e)
  | enter op r => exact fun old new ho => hAB _ _ (h old new ho)

theorem Ensures.mono (hQ : ∀ l r, Q l r → Q' l r) {l : List (Obs W E)} (h : p.Ensures spec Q l) :
    p.Ensures spec Q' l := by
  induction p generalizing l with
  | ret r => exact hQ _ _ h
  | load k ih => exact fun w => ih w (h w)
  | compareExchange old new k ih => exact ⟨ih true h.1, ih false h.2⟩
  | sample k ih => exact fun e => ih e (h e)
  | enter op r =>
    cases r with
    | none => exact fun l' r ho => hQ _ _ (h l' r ho)
    | some r => exact fun l' hl => hQ _ _ (h l' hl)

theorem ensures_of_forall (hQ : ∀ l r, Q l r) (l : List (Obs W E)) : p.Ensures spec Q l := by
  induction p generalizing l with
  | ret r => exact hQ _ _
  | load k ih => exact fun w => ih w _
  | compareExchange old new k ih => exact ⟨ih true _, ih false _⟩
  | sample k ih => exact fun e => ih e _
  | enter op r =>
    cases r with
    | none => exact fun l' r _ => hQ _ _
    | some r => exact fun l' _ => hQ _ _

end Prog

/-! ## Runs -/

/-- What was seen was there at that time. -/
def Obs.Real (s : Sys W E Op R) (t : Nat) : Obs W E → Prop
  | .loaded w => s.words[t]? = some w
  | .swapped _ new => s.words[t + 1]? = some new
  | .sampled _ => True

/-- Everything in a list was seen at its time, since `began`. -/
def SeenOk (s : Sys W E Op R) (began : Nat) (seen : List (Nat × Obs W E)) : Prop :=
  ∀ o ∈ seen, began ≤ o.1 ∧ o.1 < s.time ∧ o.2.Real s o.1

section Invariant

variable (allowed : Op → W → W → Prop) (spec : Op → List (Obs W E) → R → Prop)

/-- What an open call has seen. -/
structure CallInv (s : Sys W E Op R) (c : Call W E Op R) : Prop where
  began : c.began ≤ s.time
  seen : SeenOk s c.began c.seen
  swaps : c.prog.Swaps allowed (allowed c.op)
  open_ : c.answer = none → c.prog.Ensures spec (spec c.op) (c.seen.map Prod.snd)
  answered : ∀ r, c.answer = some r → ∀ l, c.seen.map Prod.snd ⊆ l → spec c.op l r

/-- What an ended call has seen. -/
structure DoneInv (s : Sys W E Op R) (d : Done W E Op R) : Prop where
  ended : d.ended < s.time
  seen : SeenOk s d.began d.seen
  seen_before : ∀ o ∈ d.seen, o.1 < d.ended
  result : spec d.op (d.seen.map Prod.snd) d.result

structure Inv (init : W) (s : Sys W E Op R) : Prop where
  calls : ∀ t c, s.calls.get t = some c → CallInv allowed spec s c
  done : ∀ d ∈ s.done, DoneInv spec s d
  swaps : ∀ x ∈ s.swaps, x.time < s.time ∧ allowed x.op x.old x.new
  start : s.words[0]? = some init
  chain : ∀ t w w', s.words[t]? = some w → s.words[t + 1]? = some w' →
    w' = w ∨ ∃ x ∈ s.swaps, x.time = t ∧ x.old = w ∧ x.new = w'

end Invariant

section Runs

variable {allowed : Op → W → W → Prop} {spec : Op → List (Obs W E) → R → Prop} {init : W} {s s' : Sys W E Op R}

/-- One step later. -/
structure Later (s s' : Sys W E Op R) : Prop where
  past : s'.past = s.past ++ [s.word]

namespace Later

section

variable (h : Later s s')
include h

theorem words : s'.words = s.words ++ [s'.word] := by
  unfold Sys.words
  rw [h.past]

theorem time : s'.time = s.time + 1 := by
  unfold Sys.time
  rw [h.past, length_append]
  rfl

theorem getElem? {t : Nat} {w : W} (ht : s.words[t]? = some w) : s'.words[t]? = some w := by
  obtain ⟨hlt, _⟩ := List.getElem?_eq_some_iff.1 ht
  rw [h.words, List.getElem?_append_left hlt]
  exact ht

theorem real {t : Nat} {o : Obs W E} (ho : o.Real s t) : o.Real s' t := by
  cases o with
  | loaded w | swapped old new => exact h.getElem? ho
  | sampled e => trivial

theorem seenOk {began : Nat} {seen : List (Nat × Obs W E)} (hs : SeenOk s began seen) : SeenOk s' began seen := by
  intro o ho
  obtain ⟨hb, ht, hr⟩ := hs o ho
  refine ⟨hb, ?_, h.real hr⟩
  rw [h.time]
  omega

theorem callInv {c : Call W E Op R} (hc : CallInv allowed spec s c) : CallInv allowed spec s' c := by
  refine ⟨?_, h.seenOk hc.seen, hc.swaps, hc.open_, hc.answered⟩
  have := hc.began
  rw [h.time]
  omega

theorem doneInv {d : Done W E Op R} (hd : DoneInv spec s d) : DoneInv spec s' d := by
  refine ⟨?_, h.seenOk hd.seen, hd.seen_before, hd.result⟩
  have := hd.ended
  rw [h.time]
  omega

end

end Later

theorem length_words (s : Sys W E Op R) : s.words.length = s.time + 1 := length_append

theorem words_time (s : Sys W E Op R) : s.words[s.time]? = some s.word := by
  unfold Sys.words Sys.time
  rw [List.getElem?_append_right le_rfl, Nat.sub_self]
  rfl

theorem Later.words_now (h : Later s s') : s'.words[s.time + 1]? = some s'.word := by
  rw [← h.time]
  exact words_time s'

/-- The word has moved, if at all, by an exchange that some operation may make. -/
def Moved (allowed : Op → W → W → Prop) (s s' : Sys W E Op R) : Prop :=
  (s'.word = s.word ∧ s'.swaps = s.swaps) ∨
    ∃ op, allowed op s.word s'.word ∧ s'.swaps = s.swaps ++ [⟨op, s.time, s.word, s'.word⟩]

section

variable {o : Obs W E} {c : Call W E Op R} {p : Prog W E Op R}

theorem Moved.swaps_subset (h : Moved allowed s s') : s.swaps ⊆ s'.swaps := by
  rcases h with ⟨_, hs⟩ | ⟨op, _, hs⟩
  · rw [hs]; exact List.Subset.refl _
  · rw [hs]; exact subset_append_left _ _

/-- One step of the whole system, from what it does to the calls. -/
theorem Inv.later (h : Inv allowed spec init s) (hl : Later s s') (hm : Moved allowed s s')
    (hcalls : ∀ t c, s'.calls.get t = some c → s.calls.get t = some c ∨ CallInv allowed spec s' c)
    (hdone : ∀ d ∈ s'.done, d ∈ s.done ∨ DoneInv spec s' d) : Inv allowed spec init s' := by
  refine ⟨fun t c hc => ?_, fun d hd => ?_, fun x hx => ?_, hl.getElem? h.start, fun t w w' hw hw' => ?_⟩
  · rcases hcalls t c hc with hold | hnew
    · exact hl.callInv (h.calls t c hold)
    · exact hnew
  · rcases hdone d hd with hold | hnew
    · exact hl.doneInv (h.done d hold)
    · exact hnew
  · rw [hl.time]
    rcases hm with ⟨_, hs⟩ | ⟨op, hop, hs⟩
    · rw [hs] at hx; obtain ⟨ht, ha⟩ := h.swaps x hx; exact ⟨by omega, ha⟩
    rw [hs] at hx
    rcases mem_append.1 hx with hx | hx
    · obtain ⟨ht, ha⟩ := h.swaps x hx; exact ⟨by omega, ha⟩
    · rw [mem_singleton.1 hx]; exact ⟨Nat.lt_succ_self _, hop⟩
  -- the last pair of words is the step itself
  obtain ⟨hlt', _⟩ := List.getElem?_eq_some_iff.1 hw'
  rw [length_words, hl.time] at hlt'
  by_cases hlast : t = s.time
  · subst hlast
    have hold : w = s.word := by
      have := hl.getElem? (words_time s)
      rw [hw] at this
      exact some.inj this
    have hnew : w' = s'.word := by
      have := words_time s'
      rw [hl.time, hw'] at this
      exact some.inj this
    subst hold hnew
    rcases hm with ⟨hword, _⟩ | ⟨op, _, hs⟩
    · exact .inl hword
    refine .inr ⟨⟨op, s.time, s.word, s'.word⟩, ?_, rfl, rfl, rfl⟩
    rw [hs]
    exact mem_append_right _ mem_cons_self
  · have hback : ∀ {i : Nat} {v : W}, i ≤ s.time → s'.words[i]? = some v → s.words[i]? = some v := by
      intro i v hi hv
      rw [hl.words, List.getElem?_append_left (by rw [length_words]; omega)] at hv
      exact hv
    rcases h.chain t w w' (hback (by omega) hw) (hback (by omega) hw') with heq | ⟨x, hx, hx'⟩
    · exact .inl heq
    · exact .inr ⟨x, hm.swaps_subset hx, hx'⟩

theorem seenOk_append (hl : Later s s') {began : Nat} {seen : List (Nat × Obs W E)} (hb : began ≤ s.time)
    (hs : SeenOk s began seen) (ho : o.Real s' s.time) : SeenOk s' began (seen ++ [(s.time, o)]) := by
  intro p hp
  rcases mem_append.1 hp with hp | hp
  · exact hl.seenOk hs p hp
  rw [mem_singleton.1 hp]
  refine ⟨hb, ?_, ho⟩
  rw [hl.time]
  exact Nat.lt_succ_self _

theorem callInv_see (hl : Later s s') (hc : CallInv allowed spec s c)
    (ho : o.Real s' s.time) (hsw : p.Swaps allowed (allowed c.op))
    (hen : c.answer = none → p.Ensures spec (spec c.op) (c.seen.map Prod.snd ++ [o])) :
    CallInv allowed spec s' { c with prog := p, seen := c.seen ++ [(s.time, o)] } := by
  refine ⟨?_, seenOk_append hl hc.began hc.seen ho, hsw, fun hn => ?_, fun r hr l hsub => ?_⟩
  · have := hc.began
    rw [hl.time]
    show c.began ≤ s.time + 1
    omega
  · rw [map_append]; exact hen hn
  · refine hc.answered r hr l fun x hx => hsub ?_; rw [map_append]; exact mem_append_left _ hx

theorem callInv_skip (hl : Later s s') {answer : Option R} (hc : CallInv allowed spec s c)
    (hsw : p.Swaps allowed (allowed c.op)) (hen : answer = none → p.Ensures spec (spec c.op) (c.seen.map Prod.snd))
    (hans : ∀ r, answer = some r → ∀ l, c.seen.map Prod.snd ⊆ l → spec c.op l r) :
    CallInv allowed spec s' { c with prog := p, answer := answer } := by
  refine ⟨?_, hl.seenOk hc.seen, hsw, hen, hans⟩
  have := hc.began
  rw [hl.time]
  show c.began ≤ s.time + 1
  omega

theorem boot_inv (env : E) : Inv allowed spec init (Sys.boot init env : Sys W E Op R) := by
  refine ⟨fun t c hc => ?_, fun d hd => absurd hd not_mem_nil, fun x hx => absurd hx not_mem_nil, rfl,
    fun t w w' hw hw' => ?_⟩
  · cases (Table.get_empty t).symm.trans hc
  · cases (List.getElem?_eq_none (Nat.le_add_left _ _)).symm.trans hw'

end

namespace Inv

variable {P : W → Prop} {i j : Nat} {v w : W}

/-- The word leaves `P` only by an exchange that does. -/
theorem crossing (h : Inv allowed spec init s) (hij : i ≤ j)
    (hv : s.words[i]? = some v) (hw : s.words[j]? = some w) (hPv : P v) (hPw : ¬P w) :
    ∃ x ∈ s.swaps, i ≤ x.time ∧ x.time < j ∧ P x.old ∧ ¬P x.new := by
  induction j, hij using Nat.le_induction generalizing w with
  | base => rw [hv] at hw; exact absurd (some.inj hw ▸ hPv) hPw
  | succ j hij ih =>
    obtain ⟨hlt, _⟩ := List.getElem?_eq_some_iff.1 hw
    obtain ⟨u, hu⟩ : ∃ u, s.words[j]? = some u := ⟨_, List.getElem?_eq_getElem (Nat.lt_of_succ_lt hlt)⟩
    by_cases hPu : P u
    · rcases h.chain j u w hu hw with rfl | ⟨x, hx, ht, rfl, rfl⟩
      · exact absurd hPu hPw
      · exact ⟨x, hx, by omega, by omega, hPu, hPw⟩
    · obtain ⟨x, hx, hi, hj, hP⟩ := ih hu hPu; exact ⟨x, hx, hi, by omega, hP⟩

/-- What every exchange keeps stays true of the word. -/
theorem stable (h : Inv allowed spec init s) (hP : ∀ op old new, allowed op old new → P old → P new)
    (hij : i ≤ j) (hv : s.words[i]? = some v) (hw : s.words[j]? = some w) (hPv : P v) : P w := by
  by_contra hPw
  obtain ⟨x, hx, -, -, hold, hnew⟩ := h.crossing hij hv hw hPv hPw
  exact hnew (hP _ _ _ (h.swaps x hx).2 hold)

/-- A word is the first one, or some exchange brought it. -/
theorem origin (h : Inv allowed spec init s) (hw : s.words[i]? = some w) :
    w = init ∨ ∃ x ∈ s.swaps, x.time < i ∧ x.new = w := by
  induction i generalizing w with
  | zero => rw [h.start] at hw; exact .inl (some.inj hw).symm
  | succ i ih =>
    obtain ⟨hlt, _⟩ := List.getElem?_eq_some_iff.1 hw
    obtain ⟨u, hu⟩ : ∃ u, s.words[i]? = some u := ⟨_, List.getElem?_eq_getElem (Nat.lt_of_succ_lt hlt)⟩
    rcases h.chain i u w hu hw with rfl | ⟨x, hx, ht, _, hn⟩
    · rcases ih hu with hinit | ⟨x, hx, ht, hn⟩
      · exact .inl hinit
      · exact .inr ⟨x, hx, by omega, hn⟩
    · exact .inr ⟨x, hx, by omega, hn⟩

end Inv

variable [DecidableEq W] {body : Op → Prog W E Op R} {moves : E → E → Bool}

section

variable (hbody : ∀ op, (body op).Swaps allowed (allowed op)) (hspec : ∀ op l, (body op).Ensures spec (spec op) l)
include hbody hspec

theorem exec_inv
    {tid : Nat} {c : Call W E Op R} (h : Inv allowed spec init s) (hc : s.calls.get tid = some c) :
    Inv allowed spec init (s.exec body tid c) := by
  have hci := h.calls tid c hc
  have hsw := hci.swaps
  have hen := hci.open_
  have hl : ∀ word calls done swaps, Later s ⟨word, s.env, calls, done, swaps, s.past ++ [s.word]⟩ :=
    fun _ _ _ _ => ⟨rfl⟩
  have hput : ∀ {word swaps done c'}, CallInv allowed spec ⟨word, s.env, s.calls.put tid c', done, swaps,
      s.past ++ [s.word]⟩ c' → ∀ t u, (s.calls.put tid c').get t = some u → s.calls.get t = some u ∨
      CallInv allowed spec ⟨word, s.env, s.calls.put tid c', done, swaps, s.past ++ [s.word]⟩ u := by
    intro word swaps done c' hnew t u hu
    rcases Table.cases_put hu with ⟨-, rfl⟩ | ⟨-, hold⟩
    · exact .inr hnew
    · exact .inl hold
  unfold Sys.exec
  split
  · rename_i r hp
    rw [hp] at hen
    refine h.later (hl _ _ _ _) (.inl ⟨rfl, rfl⟩) (fun t u hu => .inl ?_) fun d hd => ?_
    · have hu' : (s.calls.del tid).get t = some u := hu
      obtain ⟨-, hu'⟩ := Table.of_del hu'
      exact hu'
    rcases mem_append.1 hd with hd | hd
    · exact .inl hd
    rw [mem_singleton.1 hd]
    refine .inr ⟨?_, (hl _ _ _ _).seenOk hci.seen, fun o ho => (hci.seen o ho).2.1, ?_⟩
    · rw [(hl _ _ _ _).time]; exact Nat.lt_succ_self _
    cases ha : c.answer with
    | none => exact hen ha
    | some r' => exact hci.answered r' ha _ (List.Subset.refl _)
  · rename_i k hp
    rw [hp] at hsw hen
    refine h.later (hl _ _ _ _) (.inl ⟨rfl, rfl⟩) (hput (callInv_see (hl _ _ _ _) hci ?_ (hsw _) fun hn => hen hn _))
      fun d hd => .inl hd
    exact (hl _ _ _ _).getElem? (words_time s)
  · rename_i old new k hp
    rw [hp] at hsw hen
    split
    · rename_i hword
      subst hword
      refine h.later (hl _ _ _ _) (.inr ⟨c.op, hsw.1, rfl⟩)
        (hput (callInv_see (hl _ _ _ _) hci ?_ (hsw.2 true) fun hn => (hen hn).1)) fun d hd => .inl hd
      exact (hl _ _ _ _).words_now
    · exact h.later (hl _ _ _ _) (.inl ⟨rfl, rfl⟩)
        (hput (callInv_skip (hl _ _ _ _) hci (hsw.2 false) (fun hn => (hen hn).2) hci.answered)) fun d hd => .inl hd
  · rename_i k hp
    rw [hp] at hsw hen
    exact h.later (hl _ _ _ _) (.inl ⟨rfl, rfl⟩)
      (hput (callInv_see (hl _ _ _ _) hci trivial (hsw _) fun hn => hen hn _)) fun d hd => .inl hd
  · rename_i op r hp
    rw [hp] at hsw hen
    refine h.later (hl _ _ _ _) (.inl ⟨rfl, rfl⟩)
      (hput (callInv_skip (hl _ _ _ _) hci ((hbody op).mono hsw) (fun hn => ?_) fun r' hr' => ?_)) fun d hd => .inl hd
    · obtain ⟨ha, rfl⟩ := or_eq_none_iff.1 hn; exact (hspec op _).mono (hen ha)
    rcases or_eq_some_iff.1 hr' with ha | ⟨ha, rfl⟩
    · exact hci.answered r' ha
    · exact hen ha

theorem step_inv {a : Action E Op} (h : Inv allowed spec init s) (hs : s.step body moves a = some s') :
    Inv allowed spec init s' := by
  cases a with
  | call tid op =>
    obtain ⟨-, rfl⟩ := Machine.of_guard_not hs
    refine h.later ⟨rfl⟩ (.inl ⟨rfl, rfl⟩) (fun t u hu => ?_) fun d hd => .inl hd
    rcases Table.cases_put hu with ⟨-, rfl⟩ | ⟨-, hold⟩
    · refine .inr ⟨?_, fun o ho => absurd ho not_mem_nil, hbody op, fun _ => hspec op _, nofun⟩
      show s.time ≤ (s.past ++ [s.word]).length
      rw [length_append]
      exact Nat.le_add_right _ _
    · exact .inl hold
  | run tid => obtain ⟨c, hc, rfl⟩ := map_eq_some_iff.1 hs; exact exec_inv hbody hspec h hc
  | env e =>
    obtain ⟨-, rfl⟩ := Machine.of_guard hs
    exact h.later ⟨rfl⟩ (.inl ⟨rfl, rfl⟩) (fun t u hu => .inl hu) fun d hd => .inl hd

/-- **The rule.** Operations whose bodies only make their exchanges and ensure what they promise do so in every run. -/
theorem reach_inv {env : E} (h : Machine.Reach (Sys.step body moves) Machine.anyStep (Sys.boot init env) s) :
    Inv allowed spec init s :=
  h.invariant (I := Inv allowed spec init) (boot_inv env) fun _ _ _ hi _ hs => step_inv hbody hspec hi hs

end

end Runs

end Atomic
