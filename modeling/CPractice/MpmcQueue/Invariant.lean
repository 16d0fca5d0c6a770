import CPractice.MpmcQueue.Tickets

/-!
# The invariant of the queue under its threads

A thread between its compare-and-swap and its store of the sequence number holds the ticket it drew.
The tickets that are drawn and not yet published or released are held by one thread each.
-/

namespace CPractice.MpmcQueue

open Lib

variable {ι α : Type} {q q' : Queue α} {h h' : History α} {pc pc' : Pc α} {k : ℕ}

/-- A ticket of `enqueue` or of `dequeue`. -/
inductive Ticket where
  | enq (headSeq : ℕ)
  | deq (tailSeq : ℕ)
  deriving DecidableEq

/-- The ticket a thread holds. -/
def Pc.ticket : Pc α → Option Ticket
  | .enqStore _ headSeq => some (.enq headSeq)
  | .enqPublish _ headSeq => some (.enq headSeq)
  | .deqCopy tailSeq => some (.deq tailSeq)
  | .deqRelease tailSeq _ => some (.deq tailSeq)
  | _ => none

/-- The ticket is drawn, and not published or released. -/
def History.Open (h : History α) : Ticket → Prop
  | .enq headSeq => headSeq < h.enqueued.length ∧ headSeq ∉ h.published
  | .deq tailSeq => tailSeq < h.taken ∧ ¬ h.Released tailSeq

/-- What the locals of a thread say about the queue.  A sequence number that was loaded while the
ticket was current decides whether the ticket may be drawn, as long as it is current. -/
def PcOk (q : Queue α) (h : History α) : Pc α → Prop
  | .enqLoop _ headSeq => headSeq ≤ h.enqueued.length
  | .enqTest _ headSeq nodeSeq =>
      headSeq ≤ h.enqueued.length ∧ nodeSeq < 9223372036854775808 ∧
        (nodeSeq = headSeq → headSeq = h.enqueued.length → h.Free q.size headSeq)
  | .enqStore data headSeq => h.enqueued[headSeq]? = some data
  | .enqPublish data headSeq =>
      h.enqueued[headSeq]? = some data ∧ (q.buffer (headSeq % q.size)).data = some data
  | .deqLoop tailSeq => tailSeq ≤ h.taken
  | .deqTest tailSeq nodeSeq =>
      tailSeq ≤ h.taken ∧ nodeSeq < 9223372036854775808 ∧
        (nodeSeq = tailSeq + 1 → tailSeq = h.taken → tailSeq ∈ h.published)
  | .deqRelease tailSeq data => h.enqueued[tailSeq]? = some data
  | _ => True

structure Inv (s : State ι α) (h : History α) : Prop where
  shape : Shape s.queue h
  locals : ∀ t, PcOk s.queue h (s.threads t)
  unique : ∀ t u x, (s.threads t).ticket = some x → (s.threads u).ticket = some x → t = u
  held : ∀ x, h.Open x ↔ ∃ t, (s.threads t).ticket = some x

/-! ## Histories grow -/

structure Extends (h h' : History α) : Prop where
  enqueued : h.enqueued <+: h'.enqueued
  published : ∀ k ∈ h.published, k ∈ h'.published
  taken : h.taken ≤ h'.taken
  released : ∀ k, h.Released k → h'.Released k

theorem extends_step (h : History α) (call : Call ι α) (event : Event α) :
    Extends h (h.step call event) := by
  cases event with
  | claimed data => exact ⟨List.prefix_append _ _, fun _ hk ↦ hk, le_rfl, fun _ hk ↦ hk⟩
  | published headSeq =>
      exact ⟨List.prefix_refl _, fun _ hk ↦ List.mem_append_left _ hk, le_rfl, fun _ hk ↦ hk⟩
  | taken => exact ⟨List.prefix_refl _, fun _ hk ↦ hk, Nat.le_succ _, fun _ hk ↦ hk⟩
  | released tailSeq data =>
      refine ⟨List.prefix_refl _, fun _ hk ↦ hk, le_rfl, ?_⟩
      rintro k ⟨data', hmem⟩
      exact ⟨data', List.mem_append_left _ hmem⟩
  | _ => exact ⟨List.prefix_refl _, fun _ hk ↦ hk, le_rfl, fun _ hk ↦ hk⟩

theorem Extends.get (hext : Extends h h') {data : α} (hget : h.enqueued[k]? = some data) :
    h'.enqueued[k]? = some data := by
  obtain ⟨rest, hrest⟩ := hext.enqueued
  rw [← hrest, List.getElem?_append_left (List.getElem?_eq_some_iff.mp hget).1, hget]

/-- The locals of a thread stay right while others run, as long as the data it stored is left alone. -/
theorem PcOk.mono (hok : PcOk q h pc) (hsize : q'.size = q.size) (hext : Extends h h')
    (hdata : ∀ data k, pc = .enqPublish data k →
      (q'.buffer (k % q.size)).data = (q.buffer (k % q.size)).data) : PcOk q' h' pc := by
  have hlen := hext.enqueued.length_le
  have htaken := hext.taken
  cases pc with
  | enqLoop data headSeq => exact Nat.le_trans hok hlen
  | enqTest data headSeq nodeSeq =>
      obtain ⟨hle, hlt, hfree⟩ := hok
      refine ⟨hle.trans hlen, hlt, fun hseq hhead prior hprior ↦ ?_⟩
      rw [hsize] at hprior
      exact hext.released prior (hfree hseq (by omega) prior hprior)
  | enqStore data headSeq => exact hext.get hok
  | enqPublish data headSeq =>
      refine ⟨hext.get hok.1, ?_⟩
      rw [hsize, hdata data headSeq rfl]
      exact hok.2
  | deqLoop tailSeq => exact Nat.le_trans hok htaken
  | deqTest tailSeq nodeSeq =>
      obtain ⟨hle, hlt, hpublished⟩ := hok
      exact ⟨hle.trans htaken, hlt, fun hseq htail ↦
        hext.published _ (hpublished hseq (by omega))⟩
  | deqRelease tailSeq data => exact hext.get hok
  | _ => trivial

/-! ## One thread changes -/

variable [DecidableEq ι] {s : State ι α} {t : ι}

/-- The state after a step of a thread. -/
def State.advance (s : State ι α) (t : ι) (q : Queue α) (pc : Pc α) : State ι α :=
  ⟨q, Function.update s.threads t pc⟩

theorem State.advance_self (q : Queue α) (pc : Pc α) : (s.advance t q pc).threads t = pc :=
  Function.update_self _ _ _

theorem State.advance_ne (q : Queue α) (pc : Pc α) {u : ι} (hne : u ≠ t) :
    (s.advance t q pc).threads u = s.threads u :=
  Function.update_of_ne hne _ _

/-- What a step of one thread has to show: its ticket before is closed unless it keeps it, and its
ticket after is new unless it kept it. -/
theorem Inv.advance (hinv : Inv s h) (hshape : Shape q' h') (hsize : q'.size = s.queue.size)
    (hext : Extends h h') (hok : PcOk q' h' pc')
    (hdata : ∀ u, u ≠ t → ∀ data k, s.threads u = .enqPublish data k →
      (q'.buffer (k % s.queue.size)).data = (s.queue.buffer (k % s.queue.size)).data)
    (hopen : ∀ x, h'.Open x ↔
      h.Open x ∧ (s.threads t).ticket ≠ some x ∨ pc'.ticket = some x)
    (hnew : ∀ x, pc'.ticket = some x → (s.threads t).ticket = some x ∨ ¬ h.Open x) :
    Inv (s.advance t q' pc') h' := by
  have hother : ∀ u x, u ≠ t → (s.threads u).ticket = some x → pc'.ticket ≠ some x := by
    intro u x hu hux hx
    rcases hnew x hx with hold | hclosed
    · exact hu (hinv.unique u t x hux hold)
    · exact hclosed ((hinv.held x).mpr ⟨u, hux⟩)
  refine ⟨hshape, ?_, ?_, ?_⟩
  · intro u
    by_cases hu : u = t
    · rw [hu, State.advance_self]
      exact hok
    · rw [State.advance_ne _ _ hu]
      exact (hinv.locals u).mono hsize hext (hdata u hu)
  · intro u v x hux hvx
    by_cases hu : u = t
    · by_cases hv : v = t
      · rw [hu, hv]
      · rw [hu, State.advance_self] at hux
        rw [State.advance_ne _ _ hv] at hvx
        exact absurd hux (hother v x hv hvx)
    · rw [State.advance_ne _ _ hu] at hux
      by_cases hv : v = t
      · rw [hv, State.advance_self] at hvx
        exact absurd hvx (hother u x hu hux)
      · rw [State.advance_ne _ _ hv] at hvx
        exact hinv.unique u v x hux hvx
  · intro x
    rw [hopen x]
    constructor
    · rintro (⟨hold, hne⟩ | hself)
      · obtain ⟨u, hu⟩ := (hinv.held x).mp hold
        have hut : u ≠ t := by
          rintro rfl
          exact hne hu
        exact ⟨u, by rw [State.advance_ne _ _ hut, hu]⟩
      · exact ⟨t, by rw [State.advance_self, hself]⟩
    · rintro ⟨u, hu⟩
      by_cases hut : u = t
      · rw [hut, State.advance_self] at hu
        exact .inr hu
      · rw [State.advance_ne _ _ hut] at hu
        exact .inl ⟨(hinv.held x).mpr ⟨u, hu⟩, fun heq ↦ hut (hinv.unique u t x hu heq)⟩

/-- A thread that moves on and keeps its ticket, or has none. -/
theorem Inv.quiet (hinv : Inv s h) (hshape : Shape q' h) (hsize : q'.size = s.queue.size)
    (hok : PcOk q' h pc') (hticket : pc'.ticket = (s.threads t).ticket)
    (hdata : ∀ u, u ≠ t → ∀ data k, s.threads u = .enqPublish data k →
      (q'.buffer (k % s.queue.size)).data = (s.queue.buffer (k % s.queue.size)).data) :
    Inv (s.advance t q' pc') h := by
  apply hinv.advance hshape hsize (extends_step h (.size t) .silent) hok hdata
  · intro x
    rw [hticket]
    constructor
    · intro hold
      by_cases heq : (s.threads t).ticket = some x
      · exact .inr heq
      · exact .inl ⟨hold, heq⟩
    · rintro (⟨hold, _⟩ | heq)
      · exact hold
      · exact (hinv.held x).mpr ⟨t, heq⟩
  · exact fun x hx ↦ .inl (hticket ▸ hx)

/-- A thread that moves on with the queue as it is. -/
theorem Inv.pause (hinv : Inv s h) (hok : PcOk s.queue h pc')
    (hticket : pc'.ticket = (s.threads t).ticket) : Inv (s.advance t s.queue pc') h :=
  hinv.quiet hinv.shape rfl hok hticket fun _ _ _ _ _ ↦ rfl

/-! ## The steps with a ticket event -/

theorem Inv.claim (hinv : Inv s h) {data : α} {headSeq : ℕ} (hhead : headSeq = h.enqueued.length)
    (hfree : h.Free s.queue.size headSeq)
    (hbound : h.enqueued.length + s.queue.size < 9223372036854775808)
    (hnone : (s.threads t).ticket = none) :
    Inv (s.advance t { s.queue with headSeq := u8 (headSeq + 1) } (.enqStore data headSeq))
      { h with enqueued := h.enqueued ++ [data] } := by
  subst hhead
  have hnew : h.enqueued.length ∉ h.published := fun hmem ↦
    absurd (hinv.shape.published_lt _ hmem) (lt_irrefl _)
  refine hinv.advance (hinv.shape.claim hfree hbound data) rfl (extends_step h (.size t) (.claimed data))
    ?_ (fun _ _ _ _ _ ↦ rfl) ?_ ?_
  · exact List.getElem?_concat_length
  · intro x
    rw [hnone]
    cases x with
    | enq k =>
        simp only [History.Open, Pc.ticket, List.length_append, List.length_singleton,
          Option.some.injEq, Ticket.enq.injEq, ne_eq, reduceCtorEq, not_false_eq_true, and_true]
        constructor
        · rintro ⟨hlt, hnot⟩
          rcases Nat.lt_succ_iff_lt_or_eq.mp hlt with hlt | heq
          · exact .inl ⟨hlt, hnot⟩
          · exact .inr heq.symm
        · rintro (⟨hlt, hnot⟩ | rfl)
          · exact ⟨Nat.lt_succ_of_lt hlt, hnot⟩
          · exact ⟨Nat.lt_succ_self _, hnew⟩
    | deq k => simp [History.Open, Pc.ticket, History.Released]
  · intro x hx
    obtain rfl : Ticket.enq h.enqueued.length = x := by simpa [Pc.ticket] using hx
    exact .inr fun hold ↦ absurd hold.1 (lt_irrefl _)

theorem Inv.store (hinv : Inv s h) {data : α} {headSeq : ℕ}
    (hpc : s.threads t = .enqStore data headSeq) :
    Inv (s.advance t (setNode s.queue (headSeq % s.queue.size)
      { s.queue.buffer (headSeq % s.queue.size) with data := some data })
      (.enqPublish data headSeq)) h := by
  have hticket : (s.threads t).ticket = some (.enq headSeq) := by rw [hpc, Pc.ticket]
  have hget := hinv.locals t
  rw [hpc] at hget
  obtain ⟨hlt, hnot⟩ := (hinv.held (.enq headSeq)).mpr ⟨t, hticket⟩
  apply hinv.quiet (hinv.shape.store hlt hnot data) rfl
  · refine ⟨hget, ?_⟩
    change ((setNode s.queue _ _).buffer (headSeq % s.queue.size)).data = _
    rw [setNode_self]
  · rw [hticket, Pc.ticket]
  · intro u hu data' k hpcu
    have hticketu : (s.threads u).ticket = some (.enq k) := by rw [hpcu, Pc.ticket]
    obtain ⟨hltk, hnotk⟩ := (hinv.held (.enq k)).mpr ⟨u, hticketu⟩
    have hne : k ≠ headSeq := by
      rintro rfl
      exact hu (hinv.unique u t _ hticketu hticket)
    rw [setNode_ne (hinv.shape.slot_ne hlt (hinv.shape.not_released hnot) hltk
      (hinv.shape.window_claimed hltk hnotk) hne)]

theorem Inv.publish (hinv : Inv s h) {data : α} {headSeq : ℕ}
    (hpc : s.threads t = .enqPublish data headSeq) :
    Inv (s.advance t (setNode s.queue (headSeq % s.queue.size)
      { s.queue.buffer (headSeq % s.queue.size) with seq := u8 (headSeq + 1) }) (.enqCount data))
      { h with published := h.published ++ [headSeq] } := by
  have hticket : (s.threads t).ticket = some (.enq headSeq) := by rw [hpc, Pc.ticket]
  have hok := hinv.locals t
  rw [hpc] at hok
  obtain ⟨hlt, hnot⟩ := (hinv.held (.enq headSeq)).mpr ⟨t, hticket⟩
  apply hinv.advance (hinv.shape.publish hlt hnot (hok.2.trans hok.1.symm)) rfl
    (extends_step h (.size t) (.published headSeq))
  · trivial
  · intro u _ data' k _
    by_cases heq : k % s.queue.size = headSeq % s.queue.size
    · rw [heq, setNode_self]
    · rw [setNode_ne heq]
  · intro x
    rw [hticket]
    cases x with
    | enq k =>
        simp only [History.Open, Pc.ticket, List.mem_append, List.mem_singleton, not_or,
          Option.some.injEq, Ticket.enq.injEq, ne_eq, reduceCtorEq, or_false]
        constructor
        · rintro ⟨hltk, hnotk, hne⟩
          exact ⟨⟨hltk, hnotk⟩, fun heq ↦ hne heq.symm⟩
        · rintro ⟨⟨hltk, hnotk⟩, hne⟩
          exact ⟨hltk, hnotk, fun heq ↦ hne heq.symm⟩
    | deq k => simp [History.Open, Pc.ticket, History.Released]
  · intro x hx
    cases hx

theorem Inv.take (hinv : Inv s h) {tailSeq : ℕ} (htail : tailSeq = h.taken)
    (hpub : tailSeq ∈ h.published) (hnone : (s.threads t).ticket = none) :
    Inv (s.advance t { s.queue with tailSeq := u8 (tailSeq + 1) } (.deqCopy tailSeq))
      { h with taken := h.taken + 1 } := by
  subst htail
  have hnew : ¬ h.Released h.taken := fun hrel ↦
    absurd (hinv.shape.released_lt hrel) (lt_irrefl _)
  refine hinv.advance (hinv.shape.take hpub) rfl
    (extends_step h (.size t) .taken) trivial (fun _ _ _ _ _ ↦ rfl) ?_ ?_
  · intro x
    rw [hnone]
    cases x with
    | enq k => simp [History.Open, Pc.ticket]
    | deq k =>
        simp only [History.Open, Pc.ticket, Option.some.injEq, Ticket.deq.injEq, ne_eq,
          reduceCtorEq, not_false_eq_true, and_true]
        constructor
        · rintro ⟨hlt, hnot⟩
          rcases Nat.lt_succ_iff_lt_or_eq.mp hlt with hlt | heq
          · exact .inl ⟨hlt, hnot⟩
          · exact .inr heq.symm
        · rintro (⟨hlt, hnot⟩ | rfl)
          · exact ⟨Nat.lt_succ_of_lt hlt, hnot⟩
          · exact ⟨Nat.lt_succ_self _, hnew⟩
  · intro x hx
    obtain rfl : Ticket.deq h.taken = x := by simpa [Pc.ticket] using hx
    exact .inr fun hold ↦ absurd hold.1 (lt_irrefl _)

theorem Inv.release (hinv : Inv s h) {data : α} {tailSeq : ℕ}
    (hpc : s.threads t = .deqRelease tailSeq data) :
    Inv (s.advance t (setNode s.queue (tailSeq % s.queue.size)
      { s.queue.buffer (tailSeq % s.queue.size) with seq := u8 (u8 (tailSeq + s.queue.mask) + 1) })
      (.deqCount data)) { h with released := h.released ++ [(tailSeq, data)] } := by
  have hticket : (s.threads t).ticket = some (.deq tailSeq) := by rw [hpc, Pc.ticket]
  have hok := hinv.locals t
  rw [hpc] at hok
  obtain ⟨hlt, hnot⟩ := (hinv.held (.deq tailSeq)).mpr ⟨t, hticket⟩
  apply hinv.advance (hinv.shape.release hlt hnot hok) rfl
    (extends_step h (.size t) (.released tailSeq data))
  · trivial
  · intro u _ data' k _
    by_cases heq : k % s.queue.size = tailSeq % s.queue.size
    · rw [heq, setNode_self]
    · rw [setNode_ne heq]
  · intro x
    rw [hticket]
    cases x with
    | enq k => simp [History.Open, Pc.ticket]
    | deq k =>
        have hrel : History.Released { h with released := h.released ++ [(tailSeq, data)] } k ↔
            h.Released k ∨ k = tailSeq := by
          simp only [History.Released, List.mem_append, List.mem_singleton, Prod.mk.injEq]
          constructor
          · rintro ⟨data', hmem | ⟨rfl, -⟩⟩
            · exact .inl ⟨data', hmem⟩
            · exact .inr rfl
          · rintro (⟨data', hmem⟩ | rfl)
            · exact ⟨data', .inl hmem⟩
            · exact ⟨data, .inr ⟨rfl, rfl⟩⟩
        simp only [History.Open, hrel, not_or, Pc.ticket, Option.some.injEq, Ticket.deq.injEq,
          ne_eq, reduceCtorEq, or_false]
        constructor
        · rintro ⟨hltk, hnotk, hne⟩
          exact ⟨⟨hltk, hnotk⟩, fun heq ↦ hne heq.symm⟩
        · rintro ⟨⟨hltk, hnotk⟩, hne⟩
          exact ⟨hltk, hnotk, fun heq ↦ hne heq.symm⟩
  · intro x hx
    cases hx

end CPractice.MpmcQueue
