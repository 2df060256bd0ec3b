import Mathlib.Data.List.GetD
import Mathlib.Data.List.TakeWhile
import FormCompiler.Proofs.Token.Lexer
import FormCompiler.Token.Queue

/-!
The queue against the tokenizer behind it, for every order in which the worker and the consumer
take their steps.
-/

namespace FormCompiler

/-- What can be seen of one step. A poll may find nothing yet; a shutdown is two steps of the
consumer, and it does nothing else between them. -/
inductive Happening where
  | worked
  | handed (t : Token)
  | nothing
  | halted
  | hungUp

namespace Happening

def token? : Happening → Option Token
  | handed t => some t
  | _ => none

def isHalt : Happening → Bool
  | halted => true
  | _ => false

def received (es : List Happening) : List Token := es.filterMap token?

def live (es : List Happening) : List Happening := es.takeWhile fun e => !e.isHalt

end Happening

open Happening

structure EndsAt (tokens : Nat → Token) (n : Nat) : Prop where
  isEof : (tokens n).isEof
  first : ∀ i < n, ¬(tokens i).isEof

namespace TokenQueue

def Asks (q : TokenQueue) : Prop := q.stop = true → q.connected = false

inductive Step : TokenQueue → Happening → TokenQueue → Prop
  | work : q.work? = some q' → Step q .worked q'
  | receive : q.Asks → q.tryTake = (some t, q') → Step q (.handed t) q'
  | poll : q.Asks → q.tryTake = (none, q') → Step q .nothing q'
  | halt : q.Asks → Step q .halted q.halt
  | hangUp : q.stop = true → q.connected = true → Step q .hungUp q.hangUp

inductive Run : TokenQueue → List Happening → TokenQueue → Prop
  | start : Run q [] q
  | step : Run q es q' → Step q' e q'' → Run q (es ++ [e]) q''

theorem Run.append (hfront : Run p es q) (hback : Run q fs r) : Run p (es ++ fs) r := by
  induction hback with
  | start => simpa using hfront
  | step _ hs ih => simpa using ih.step hs

end TokenQueue

def Worker.At (tokens : Nat → Token) (n : Nat) : Worker → Prop
  | .checking m | .reading m | .sending m => m = n ∧ ∀ i < n, ¬(tokens i).isEof
  | .leaving | .gone => ∃ i, n = i + 1 ∧ EndsAt tokens i

theorem Worker.At.first {tokens : Nat → Token} {n : Nat} {w : Worker} (h : w.At tokens n) :
    ∀ i, i + 1 < n → ¬(tokens i).isEof := by
  intro i hless
  cases w with
  | checking m | reading m | sending m => exact h.2 i (by omega)
  | leaving | gone =>
    obtain ⟨j, rfl, hends⟩ := h
    exact hends.first i (by omega)

def Delivered (tokens : Nat → Token) (ts : List Token) : Prop :=
  ∃ k m, ts = (List.range k).map tokens ++ List.replicate m TokenQueue.afterEnd ∧
    (∀ i, i + 1 < k → ¬(tokens i).isEof) ∧ (0 < m → ∃ i, k = i + 1 ∧ (tokens i).isEof)

theorem Delivered.endsAt {tokens : Nat → Token} {ts later : List Token} {t : Token}
    (h : Delivered tokens (ts ++ t :: later)) (heof : t.isEof) (hfirst : ∀ u ∈ ts, ¬u.isEof) :
    EndsAt tokens ts.length ∧ ts ++ [t] = (List.range (ts.length + 1)).map tokens := by
  obtain ⟨k, m, hsame, hbefore, hdummies⟩ := h
  have hless : ts.length < k := by
    by_contra hmore
    have hlong : k < k + m := by
      have := congrArg List.length hsame
      simp only [List.length_append, List.length_cons, List.length_map, List.length_range,
        List.length_replicate] at this
      omega
    obtain ⟨i, rfl, hends⟩ := hdummies (by omega)
    have hthere : (ts ++ t :: later)[i]? = some (tokens i) := by
      rw [hsame, List.getElem?_append_left (by simp)]
      simp
    rw [List.getElem?_append_left (by omega)] at hthere
    exact hfirst _ (List.mem_of_getElem? hthere) hends
  have hfront : (ts ++ t :: later).take (ts.length + 1) =
      (List.range (ts.length + 1)).map tokens := by
    rw [hsame, List.take_append_of_le_length (by simp; omega), ← List.map_take, List.take_range,
      Nat.min_eq_left hless]
  rw [List.take_length_add_append] at hfront
  have hlength : ∀ i, (hi : i < ts.length) → ts[i] = tokens i := by
    intro i hi
    have := congrArg (·[i]?) hfront
    simpa [List.getElem?_append_left, hi, Nat.lt_succ_of_lt hi] using this
  have hlast : t = tokens ts.length := by
    have := congrArg (·[ts.length]?) hfront
    simpa using this
  refine ⟨⟨hlast ▸ heof, fun i hless => ?_⟩, by simpa using hfront⟩
  exact hlength i hless ▸ hfirst _ (List.getElem_mem hless)

namespace TokenQueue

variable {tokens : Nat → Token} {capacity taken : Nat} {q q' : TokenQueue} {e : Happening}
  {es : List Happening} {t : Token}

inductive Works (q : TokenQueue) : TokenQueue → Prop
  | checked {n : Nat} : q.worker = .checking n →
      Works q { q with worker := if q.stop then .leaving else .reading n }
  | read {n : Nat} : q.worker = .reading n → Works q { q with worker := .sending n }
  | sent {n : Nat} : q.worker = .sending n → q.channel.length < q.capacity →
      Works q { q with
        worker := if (q.tokens n).isEof then .leaving else .checking (n + 1)
        channel := q.channel ++ [q.tokens n] }
  | unheard {n : Nat} : q.worker = .sending n → q.connected = false →
      Works q { q with worker := .leaving }
  | left : q.worker = .leaving → Works q { q with worker := .gone }

theorem works (hs : q.work? = some q') : q.Works q' := by
  unfold work? at hs
  split at hs
  · case h_1 n hw => exact Option.some.inj hs ▸ .checked hw
  · case h_2 n hw => exact Option.some.inj hs ▸ .read hw
  · case h_3 n hw =>
    split at hs
    · split at hs
      · case isTrue room => exact Option.some.inj hs ▸ .sent hw room
      · cases hs
    · case isFalse alone => exact Option.some.inj hs ▸ .unheard hw (eq_false_of_ne_true alone)
  · case h_4 hw => exact Option.some.inj hs ▸ .left hw
  · cases hs

theorem exists_work (hroom : q.channel.length < q.capacity) (hw : q.worker ≠ .gone) :
    ∃ q', q.work? = some q' := by
  unfold work?
  split
  · exact ⟨_, rfl⟩
  · exact ⟨_, rfl⟩
  · rw [if_pos hroom]
    split <;> exact ⟨_, rfl⟩
  · exact ⟨_, rfl⟩
  · case h_5 gone => exact absurd gone hw

inductive Takes (q : TokenQueue) : Option Token × TokenQueue → Prop
  | done : q.finished = true → Takes q (some afterEnd, q)
  | token {t : Token} {ts : List Token} : q.finished = false → q.channel = t :: ts →
      Takes q (some t, { q with channel := ts, finished := t.isEof })
  | gone : q.finished = false → q.channel = [] → q.worker = .gone →
      Takes q (some afterEnd, { q with finished := true })
  | nothing : q.finished = false → q.channel = [] → q.worker ≠ .gone → Takes q (none, q)

theorem takes {r : Option Token × TokenQueue} (hs : q.tryTake = r) : q.Takes r := by
  subst hs
  unfold tryTake
  split
  · case isTrue done => exact .done done
  · case isFalse hfresh =>
    have hfresh : q.finished = false := eq_false_of_ne_true hfresh
    split
    · case h_1 t ts hc => exact .token hfresh hc
    · case h_2 hc =>
      split
      · case isTrue hw => exact .gone hfresh hc hw
      · case isFalse hw => exact .nothing hfresh hc hw

theorem tryTake_finished (h : q.finished = true) : q.tryTake = (some afterEnd, q) := by
  simp [tryTake, h]

structure Bounded (capacity : Nat) (q : TokenQueue) : Prop where
  capacity : q.capacity = max capacity 1
  channel : q.channel.length ≤ q.capacity

theorem Bounded.room (h : q.Bounded capacity) (hc : q.channel = []) :
    q.channel.length < q.capacity := by
  rw [hc, h.capacity]
  exact Nat.lt_of_lt_of_le Nat.one_pos (Nat.le_max_right _ _)

theorem Takes.bounded {r : Option Token × TokenQueue} (htakes : q.Takes r)
    (h : q.Bounded capacity) : r.2.Bounded capacity := by
  cases htakes with
  | done | nothing => exact h
  | gone => exact ⟨h.capacity, h.channel⟩
  | token hfresh hc =>
    have hne := h.channel
    rw [hc, List.length_cons] at hne
    exact ⟨h.capacity, Nat.le_of_succ_le hne⟩

theorem Step.bounded (hs : Step q e q') (h : q.Bounded capacity) : q'.Bounded capacity := by
  cases hs with
  | work hs =>
    cases works hs with
    | sent _ hroom => exact ⟨h.capacity, by simpa [Nat.succ_le_iff] using hroom⟩
    | _ => exact ⟨h.capacity, h.channel⟩
  | receive _ hs | poll _ hs => exact (takes hs).bounded h
  | halt => exact ⟨h.capacity, h.channel⟩
  | hangUp => exact ⟨h.capacity, Nat.zero_le _⟩

theorem Run.bounded (hrun : Run (ofTokens tokens capacity) es q) : q.Bounded capacity := by
  induction hrun with
  | start => exact ⟨rfl, Nat.zero_le _⟩
  | step _ hs ih => exact hs.bounded ih

end TokenQueue

def Happening.Finishes : Happening → Prop
  | .handed t => t.isEof
  | .halted => True
  | _ => False

namespace TokenQueue

variable {tokens : Nat → Token} {capacity taken : Nat} {q q' : TokenQueue} {e : Happening}
  {es : List Happening} {t : Token}

theorem Step.finished (hs : Step q e q') (h : q.finished = true ∨ e.Finishes) :
    q'.finished = true := by
  cases hs with
  | work hs =>
    have hdone : q.finished = true := by simpa [Happening.Finishes] using h
    cases works hs <;> exact hdone
  | receive _ hs =>
    cases takes hs with
    | done hdone => exact hdone
    | token hfresh hc => simpa [hfresh, Happening.Finishes] using h
    | gone => rfl
  | poll _ hs =>
    have hdone : q.finished = true := by simpa [Happening.Finishes] using h
    rw [tryTake_finished hdone] at hs
    cases hs
  | halt => rfl
  | hangUp =>
    have hdone : q.finished = true := by simpa [Happening.Finishes] using h
    exact hdone

theorem Run.finished (hrun : Run (ofTokens tokens capacity) es q) (h : ∃ e ∈ es, e.Finishes) :
    q.finished = true := by
  induction hrun with
  | start => simp at h
  | step _ hs ih =>
    obtain ⟨f, hmem, hfin⟩ := h
    rcases List.mem_append.mp hmem with hmem | hmem
    · exact hs.finished (.inl (ih ⟨f, hmem, hfin⟩))
    · rw [List.mem_singleton.mp hmem] at hfin
      exact hs.finished (.inr hfin)

/-- A queue that nobody has stopped: the consumer has got `taken` tokens, the following ones wait in
the channel, and it is finished as soon as it has got the end. -/
structure Open (tokens : Nat → Token) (taken : Nat) (q : TokenQueue) : Prop where
  source : q.tokens = tokens
  going : q.stop = false
  connected : q.connected = true
  channel : q.channel = (List.range' taken q.channel.length).map tokens
  worker : q.worker.At tokens (taken + q.channel.length)
  finished : q.finished = true ↔ ∃ i, taken = i + 1 ∧ EndsAt tokens i

theorem open_ofTokens (tokens : Nat → Token) (capacity : Nat) :
    (ofTokens tokens capacity).Open tokens 0 where
  source := rfl
  going := rfl
  connected := rfl
  channel := rfl
  worker := ⟨rfl, by simp [ofTokens]⟩
  finished := by simp [ofTokens]

theorem Open.work (h : q.Open tokens taken) (hs : q.work? = some q') : q'.Open tokens taken := by
  obtain ⟨hsource, hgoing, hconnected, hchannel, hworker, hfinished⟩ := h
  cases works hs with
  | checked hw | read hw | left hw =>
    rw [hw] at hworker
    refine ⟨hsource, hgoing, hconnected, hchannel, ?_, hfinished⟩
    simpa [hgoing, Worker.At] using hworker
  | unheard _ halone => exact absurd hconnected (by simp [halone])
  | sent hw _ =>
    rw [hw] at hworker
    obtain ⟨rfl, hbefore⟩ := hworker
    refine ⟨hsource, hgoing, hconnected, ?_, ?_, hfinished⟩
    · simp only [List.length_append, List.length_singleton, List.range'_1_concat, List.map_append,
        ← hchannel, hsource, List.map_singleton]
    · simp only [List.length_append, List.length_singleton, hsource]
      split
      · case isTrue ends => exact ⟨_, rfl, ends, hbefore⟩
      · case isFalse more =>
        refine ⟨rfl, fun i hless => ?_⟩
        rcases Nat.lt_succ_iff_lt_or_eq.mp hless with hless | rfl
        · exact hbefore i hless
        · exact more

theorem Open.busy (h : q.Open tokens taken) (hfresh : q.finished = false) (hc : q.channel = []) :
    q.worker ≠ .gone := by
  intro hw
  have hworker := h.worker
  rw [hw, hc] at hworker
  exact absurd (h.finished.mpr hworker) (by simp [hfresh])

theorem Open.take (h : q.Open tokens taken) (hs : q.tryTake = (some t, q')) :
    (q.finished = true ∧ t = afterEnd ∧ q' = q) ∨
      (q.finished = false ∧ t = tokens taken ∧ q'.Open tokens (taken + 1)) := by
  cases takes hs with
  | done hdone => exact .inl ⟨hdone, rfl, rfl⟩
  | gone hfresh hc hw => exact absurd hw (h.busy hfresh hc)
  | token hfresh hc =>
    obtain ⟨hsource, hgoing, hconnected, hchannel, hworker, hfinished⟩ := h
    rw [hc, List.length_cons] at hworker
    rw [hc, List.length_cons, List.range'_succ, List.map_cons, List.cons.injEq] at hchannel
    obtain ⟨rfl, hrest⟩ := hchannel
    refine .inr ⟨hfresh, rfl, hsource, hgoing, hconnected, hrest, ?_, ?_⟩
    · simpa only [Nat.add_assoc, Nat.add_comm 1] using hworker
    · constructor
      · intro hends
        exact ⟨taken, rfl, hends, fun i hless => hworker.first i (by omega)⟩
      · rintro ⟨i, hsame, hends⟩
        cases hsame
        exact hends.isEof

/-- While nobody stops the queue it is open, and the consumer has got the first tokens and, once it
is finished, ends at no place. -/
theorem Run.opened (hrun : Run (ofTokens tokens capacity) es q) (hgoing : ∀ e ∈ es, ¬e.isHalt) :
    ∃ taken m, q.Open tokens taken ∧ (0 < m → q.finished = true) ∧
      received es = (List.range taken).map tokens ++ List.replicate m afterEnd := by
  induction hrun with
  | start => exact ⟨0, 0, open_ofTokens tokens capacity, by simp, rfl⟩
  | @step es q' e q'' _ hs ih =>
    obtain ⟨taken, m, hopened, hlater, hsame⟩ := ih fun e hmem => hgoing e (by simp [hmem])
    have hkeeps : e.token? = none → received (es ++ [e]) = received es := by
      intro hquiet
      simp [received, List.filterMap_append, hquiet]
    cases hs with
    | work hs =>
      refine ⟨taken, m, hopened.work hs, fun hmore => ?_, by rw [hkeeps rfl, hsame]⟩
      exact (Step.work hs).finished (.inl (hlater hmore))
    | receive hasks hs =>
      rename_i t
      have hmore : received (es ++ [.handed t]) = received es ++ [t] := by
        simp [received, List.filterMap_append, token?]
      rcases hopened.take hs with ⟨hdone, rfl, rfl⟩ | ⟨hfresh, rfl, hopened'⟩
      · refine ⟨taken, m + 1, hopened, fun _ => hdone, ?_⟩
        rw [hmore, hsame, List.replicate_succ', List.append_assoc]
      · have hempty : m = 0 := by
          by_contra hmore
          simp [hlater (Nat.pos_of_ne_zero hmore)] at hfresh
        subst hempty
        refine ⟨taken + 1, 0, hopened', by simp, ?_⟩
        rw [hmore, hsame, List.range_succ]
        simp
    | poll hasks hs =>
      cases takes hs
      exact ⟨taken, m, hopened, hlater, by rw [hkeeps rfl, hsame]⟩
    | halt => exact absurd rfl (hgoing .halted (by simp))
    | hangUp hstopped => exact absurd hstopped (by simp [hopened.going])

theorem Run.delivered (hrun : Run (ofTokens tokens capacity) es q) (hgoing : ∀ e ∈ es, ¬e.isHalt) :
    Delivered tokens (received es) := by
  obtain ⟨taken, m, hopened, hlater, hsame⟩ := hrun.opened hgoing
  refine ⟨taken, m, hsame, fun i hless => hopened.worker.first i (by omega), fun hmore => ?_⟩
  obtain ⟨i, hlast, hends⟩ := hopened.finished.mp (hlater hmore)
  exact ⟨i, hlast, hends.isEof⟩

theorem Run.prefix {p : TokenQueue} {fs : List Happening} (hrun : Run p es q) (hfront : fs <+: es) :
    ∃ r, Run p fs r := by
  induction hrun with
  | start => exact ⟨p, List.prefix_nil.mp hfront ▸ .start⟩
  | step hrun hs ih =>
    rcases List.prefix_concat_iff.mp hfront with rfl | hfront
    · exact ⟨_, hrun.step hs⟩
    · exact ih hfront

structure Faithful (tokens : Nat → Token) (capacity : Nat) (es : List Happening) (q : TokenQueue) :
    Prop where
  bounded : q.channel.length ≤ max capacity 1
  /-- Nothing is lost or doubled before the queue is stopped. -/
  delivered : Delivered tokens (received (live es))
  /-- If nobody stops the queue, the first end is the tokenizer's, and all before it was handed
  out. -/
  ending : (∀ e ∈ es, ¬e.isHalt) → ∀ ts t later, received es = ts ++ t :: later →
    t.isEof → (∀ u ∈ ts, ¬u.isEof) →
      EndsAt tokens ts.length ∧ ts ++ [t] = (List.range (ts.length + 1)).map tokens
  /-- After an end and after a stop every receive and every poll gives an end at no place. -/
  after : (∃ e ∈ es, e.Finishes) → q.tryTake = (some afterEnd, q)
  /-- The consumer never waits for a worker that cannot move. -/
  waits : (∀ e ∈ es, ¬e.isHalt) → q.finished = false → q.channel = [] → ∃ q', Step q .worked q'

theorem Run.faithful (hrun : Run (ofTokens tokens capacity) es q) :
    Faithful tokens capacity es q where
  bounded := by
    have := hrun.bounded.channel
    rwa [hrun.bounded.capacity] at this
  delivered := by
    obtain ⟨r, hfront⟩ := hrun.prefix (List.takeWhile_prefix fun e => !e.isHalt)
    exact hfront.delivered fun e hmem => by simpa using List.mem_takeWhile_imp hmem
  ending := by
    intro hgoing ts t later hsame heof hfirst
    have := hrun.delivered hgoing
    rw [hsame] at this
    exact this.endsAt heof hfirst
  after h := tryTake_finished (hrun.finished h)
  waits := by
    intro hgoing hfresh hc
    obtain ⟨taken, m, hopened, -, -⟩ := hrun.opened hgoing
    obtain ⟨q', hs⟩ := exists_work (hrun.bounded.room hc) (hopened.busy hfresh hc)
    exact ⟨q', .work hs⟩

/-- One token behind a channel with room for one: the worker sends the token and blocks on the end,
the consumer takes the token, lets the worker run out, takes the end and asks once more, and then
shuts the queue down and polls. -/
theorem word_faithful :
    let word : Token := ⟨.name "a", ⟨.first, ⟨1, 2, 1⟩⟩⟩
    let hstop : Token := ⟨.eof, .point ⟨1, 2, 1⟩⟩
    let tokens := fun n => if n = 0 then word else hstop
    ∃ es q, (ofTokens tokens 0).Run es q ∧ received es = [word, hstop, afterEnd, afterEnd] ∧
      Faithful tokens 0 es q := by
  intro word hstop tokens
  have hasks : ∀ {q : TokenQueue}, q.stop = false → q.Asks := fun h hstop => by simp [h] at hstop
  have hrun : (ofTokens tokens 0).Run _ _ :=
    ((((((((((((((Run.start.step (.work rfl)).step (.work rfl)).step (.work rfl)).step
      (.work rfl)).step (.work rfl)).step (.receive (hasks rfl) rfl)).step
      (.poll (hasks rfl) rfl)).step (.work rfl)).step (.work rfl)).step
      (.receive (hasks rfl) rfl)).step (.receive (hasks rfl) rfl)).step
      (.halt (hasks rfl))).step (.hangUp rfl rfl)).step (.receive (fun _ => rfl) rfl))
  exact ⟨_, _, hrun, rfl, hrun.faithful⟩

end TokenQueue

def Worker.far : Worker → Nat
  | .checking _ => 4
  | .reading _ => 3
  | .sending _ => 2
  | .leaving => 1
  | .gone => 0

namespace TokenQueue

variable {capacity : Nat} {q q' : TokenQueue}

def Near (n : Nat) (q : TokenQueue) : Prop :=
  q.finished = true ∨ q.channel ≠ [] ∨ q.worker.far ≤ n

theorem Near.work {n : Nat} (h : q.Near (n + 1)) (hs : q.work? = some q') : q'.Near n := by
  rcases h with hdone | hne | hclose
  · cases works hs <;> exact .inl hdone
  · cases works hs with
    | sent => exact .inr (.inl (by simp))
    | _ => exact .inr (.inl hne)
  · cases works hs with
    | sent => exact .inr (.inl (by simp))
    | checked hw =>
      rw [hw] at hclose
      refine .inr (.inr ?_)
      dsimp only
      split <;> simp only [Worker.far] at hclose ⊢ <;> omega
    | read hw | unheard hw _ | left hw =>
      rw [hw] at hclose
      exact .inr (.inr (Nat.le_of_succ_le_succ hclose))

theorem Asks.work (h : q.Asks) (hs : q.work? = some q') : q'.Asks := by
  cases works hs <;> exact h

theorem await_run {n : Nat} (hasks : q.Asks) (hbounded : q.Bounded capacity) (hnear : q.Near n) :
    ∃ es, q.Run es (q.await (n + 1)).2 ∧ received es = [(q.await (n + 1)).1] := by
  induction n generalizing q with
  | zero =>
    obtain ⟨t, q', hs⟩ : ∃ t q', q.tryTake = (some t, q') := by
      cases hs : q.tryTake with
      | mk t? q' =>
        cases takes hs with
        | nothing hfresh hc hw =>
          have hclose : q.worker.far ≤ 0 := by simpa [Near, hfresh, hc] using hnear
          cases hworker : q.worker <;> simp [hworker, Worker.far] at hclose hw
        | _ => exact ⟨_, _, rfl⟩
    rw [await, hs]
    exact ⟨[.handed t], Run.start.step (.receive hasks hs), rfl⟩
  | succ n ih =>
    rw [await]
    split
    · case h_1 t q' hs => exact ⟨[.handed t], Run.start.step (.receive hasks hs), rfl⟩
    · case h_2 q' hs =>
      cases takes hs with
      | nothing hfresh hc hw =>
        obtain ⟨q', hs⟩ := exists_work (hbounded.room hc) hw
        obtain ⟨es, hrun, hgot⟩ :=
          ih (hasks.work hs) ((Step.work hs).bounded hbounded) (hnear.work hs)
        rw [hs]
        refine ⟨[.worked] ++ es, (Run.start.step (.work hs)).append hrun, ?_⟩
        rw [received, List.filterMap_append]
        exact hgot

theorem near_four (q : TokenQueue) : q.Near 4 :=
  .inr (.inr (by cases q.worker <;> simp [Worker.far]))

theorem take_run (hasks : q.Asks) (hbounded : q.Bounded capacity) :
    ∃ es, q.Run es q.take.2 ∧ received es = [q.take.1] :=
  await_run hasks hbounded q.near_four

theorem Run.received_spawn {source : Source} {es : List Happening}
    (hrun : Run (spawn source capacity) es q) (hgoing : ∀ e ∈ es, ¬e.isHalt) :
    ∃ n, received es = (List.range n).map fun i =>
      (TokenStream.queued source).pending.getD i ⟨.eof, (TokenStream.queued source).ending⟩ := by
  obtain ⟨taken, m, hopened, hlater, hsame⟩ := hrun.opened hgoing
  obtain ⟨us, hsplit, hbefore⟩ := (lexes_tokenize source.chars).ended
  have hpast : ∀ i, ((Tokenizer.ofSource source).nth i).isEof → us.length ≤ i := by
    intro i heof
    by_contra hless
    rw [Tokenizer.nth_ofSource, hsplit, List.getD_append _ _ _ _ (Nat.lt_of_not_le hless),
      List.getD_eq_getElem _ _ (Nat.lt_of_not_le hless)] at heof
    exact hbefore _ (List.getElem_mem _) (by simpa [Token.isEof] using heof)
  have hend : ((Tokenizer.ofSource source).nth us.length).isEof := by
    rw [Tokenizer.nth_ofSource, hsplit]
    simp [Token.isEof]
  have hshort : taken ≤ us.length + 1 := by
    by_contra hlong
    exact hopened.worker.first us.length (by omega) hend
  have hfull : 0 < m → taken = us.length + 1 := by
    intro hmore
    obtain ⟨i, rfl, hends⟩ := hopened.finished.mp (hlater hmore)
    have := hpast i hends.isEof
    omega
  have hpending : (TokenStream.queued source).pending =
      us ++ [⟨.eof, .point (.endOf source.chars)⟩] := hsplit
  refine ⟨taken + m, ?_⟩
  rw [hsame, List.range_add, List.map_append]
  congr 1
  · refine List.map_congr_left fun i hmem => ?_
    have hless : i < (us ++ [(⟨.eof, .point (.endOf source.chars)⟩ : Token)]).length := by
      have := List.mem_range.mp hmem
      rw [List.length_append, List.length_singleton]
      omega
    rw [Tokenizer.nth_ofSource, hpending, hsplit]
    exact (List.getD_eq_getElem _ _ hless).trans (List.getD_eq_getElem _ _ hless).symm
  · refine (List.eq_replicate_iff.mpr ⟨by simp, fun t hmem => ?_⟩).symm
    obtain ⟨j, hless, rfl⟩ := List.mem_map.mp hmem
    obtain ⟨i, hsmall, rfl⟩ := List.mem_map.mp hless
    have hlong := hfull (Nat.lt_of_le_of_lt (Nat.zero_le _) (List.mem_range.mp hsmall))
    rw [hpending, List.getD_eq_default _ _ (by simp [hlong])]
    rfl

end TokenQueue

end FormCompiler
