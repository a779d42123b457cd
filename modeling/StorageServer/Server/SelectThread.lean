import StorageServer.Server.Threads

/-! The select thread on its own, with the pipe and the descriptors as its environment: any
message can arrive and any of the monitored descriptors can become ready. The bound of the
monitored descriptors is computed anew in every round, by a scan that passes over the ready ones
and over the pipe. The sets are taken to have room for every descriptor, which `fd_set` has for
those below `FD_SETSIZE`. -/
namespace StorageServer.Server
open Library.Runs

/-- What the select thread does; `none` is a message of another type, or one that is not read. -/
inductive SelectEvent
  | internal
  | read (message : Option PipeMessage)

def SelectEvent.message : SelectEvent → Option (Option PipeMessage)
  | internal => none
  | read message => some message

/-- What has been read from the pipe, in order. -/
def reads (tr : List SelectEvent) : List (Option PipeMessage) := tr.filterMap (·.message)

theorem reads_append (tr tr' : List SelectEvent) : reads (tr ++ tr') = reads tr ++ reads tr' :=
  List.filterMap_append ..

/-- The part of the server that the select thread alone works on. -/
structure SelectThread where
  gFdSet : Finset ℤ
  gMaxFd : ℤ
  select : SelectState

namespace SelectThread

def initializeServer (pipeFd : ℤ) : SelectThread where
  gFdSet := {pipeFd}
  gMaxFd := pipeFd
  select := .copying

/-- The select thread handles a message. -/
def receive (s : SelectThread) : Option PipeMessage → SelectThread
  | some (.newConnection value) | some (.setConnection value) =>
    { s with gFdSet := insert value s.gFdSet, gMaxFd := max s.gMaxFd value }
  | some (.remConnection _) | none => s

theorem mem_receive (s : SelectThread) (message : Option PipeMessage) {fd : ℤ}
    (h : fd ∈ s.gFdSet) : fd ∈ (s.receive message).gFdSet := by
  match message with
  | some (.newConnection _) | some (.setConnection _) => exact Finset.mem_insert_of_mem h
  | some (.remConnection _) | none => exact h

/-- One step of the select thread that monitors the pipe at `pipeFd`. -/
inductive Step (pipeFd : ℤ) : SelectThread → SelectEvent → SelectThread → Prop
  | select {s fdsCpy} (hs : s.select = .copying) (hset : fdsCpy ⊆ s.gFdSet)
      (hmax : ∀ fd ∈ fdsCpy, fd ≤ s.gMaxFd) :
    Step pipeFd s .internal { s with select := .selected fdsCpy }
  | noMessage {s fdsCpy} (hs : s.select = .selected fdsCpy) (hp : pipeFd ∉ fdsCpy) :
    Step pipeFd s .internal { s with select := .scanning fdsCpy 0 0 }
  | message {s fdsCpy message} (hs : s.select = .selected fdsCpy) (hp : pipeFd ∈ fdsCpy) :
    Step pipeFd s (.read message) { s.receive message with select := .scanning fdsCpy 0 0 }
  | notReady {s fdsCpy fd newMaxFd} (hs : s.select = .scanning fdsCpy fd newMaxFd)
      (hle : fd ≤ s.gMaxFd) (hfd : fd ∉ fdsCpy) :
    Step pipeFd s .internal { s with select := .scanning fdsCpy (fd + 1) fd }
  | skipPipe {s fdsCpy fd newMaxFd} (hs : s.select = .scanning fdsCpy fd newMaxFd)
      (hle : fd ≤ s.gMaxFd) (hfd : fd ∈ fdsCpy) (hpipe : fd = pipeFd) :
    Step pipeFd s .internal { s with select := .scanning fdsCpy (fd + 1) newMaxFd }
  | clear {s fdsCpy fd newMaxFd} (hs : s.select = .scanning fdsCpy fd newMaxFd)
      (hle : fd ≤ s.gMaxFd) (hfd : fd ∈ fdsCpy) (hpipe : fd ≠ pipeFd) :
    Step pipeFd s .internal
      { s with gFdSet := s.gFdSet.erase fd, select := .pushing fdsCpy fd newMaxFd }
  /-- The descriptor is pushed, or its client disconnected if the work queue is full. -/
  | push {s fdsCpy fd newMaxFd} (hs : s.select = .pushing fdsCpy fd newMaxFd) :
    Step pipeFd s .internal { s with select := .scanning fdsCpy (fd + 1) newMaxFd }
  | scanned {s fdsCpy fd newMaxFd} (hs : s.select = .scanning fdsCpy fd newMaxFd)
      (hgt : s.gMaxFd < fd) :
    Step pipeFd s .internal { s with gMaxFd := newMaxFd, select := .copying }

end SelectThread

/-! ### The server runs this thread -/

namespace Threads

def selectThread (σ : Threads) : SelectThread := ⟨σ.gFdSet, σ.gMaxFd, σ.select⟩

@[simp] theorem selectThread_initializeServer (configs : FSConfig) (pipeFd : ℤ) (n : ℕ) :
    (initializeServer configs pipeFd n).selectThread = .initializeServer pipeFd := rfl

theorem selectThread_receive (σ : Threads) (message : PipeMessage) (messages : List PipeMessage)
    (select : SelectState) :
    { σ.receive message with pipe := messages, select := select : Threads }.selectThread =
      { σ.selectThread.receive message with select := select } := by
  cases message <;> rfl

/-- What a step of the server does to the select thread is one of its own steps, or nothing. -/
theorem Step.selectThread {σ τ : Threads} {e : ThreadEvent} (h : Step σ e τ) :
    (∃ l, SelectThread.Step σ.pipeFd σ.selectThread l τ.selectThread) ∨
      τ.selectThread = σ.selectThread := by
  cases h with
  | select hs hset hmax => exact .inl ⟨_, .select (s := σ.selectThread) hs hset hmax⟩
  | noMessage hs hp => exact .inl ⟨_, .noMessage (s := σ.selectThread) hs hp⟩
  | @message _ message messages hs hp hm =>
    refine .inl ⟨.read (some message), ?_⟩
    rw [selectThread_receive]
    exact .message (s := σ.selectThread) hs hp
  | notReady hs hle hfd => exact .inl ⟨_, .notReady (s := σ.selectThread) hs hle hfd⟩
  | skipPipe hs hle hfd hpipe =>
    exact .inl ⟨_, .skipPipe (s := σ.selectThread) hs hle hfd hpipe⟩
  | clear hs hle hfd hpipe => exact .inl ⟨_, .clear (s := σ.selectThread) hs hle hfd hpipe⟩
  | push hs hq => exact .inl ⟨_, .push (s := σ.selectThread) hs⟩
  | overflow hs hq => exact .inl ⟨_, .push (s := σ.selectThread) hs⟩
  | scanned hs hgt => exact .inl ⟨_, .scanned (s := σ.selectThread) hs hgt⟩
  | _ => exact .inr rfl

end Threads

namespace SelectThread
section Forgotten
variable {pipeFd writeFd : ℤ} {tr : List SelectEvent} {s t : SelectThread} {l : SelectEvent}

/-- A scan that has come to `fd`: the pipe is the only ready descriptor that it leaves in the
set, and what is not ready, the write end of the pipe among it, does not lie above `newMaxFd`. -/
structure Scanned (pipeFd writeFd : ℤ) (gFdSet fdsCpy : Finset ℤ) (fd newMaxFd : ℤ) : Prop where
  ready : ∀ x ∈ gFdSet, x < fd → x ∈ fdsCpy → x = pipeFd
  idle : ∀ x ∈ gFdSet, x < fd → x ∉ fdsCpy → x ≤ newMaxFd
  write : writeFd < fd → writeFd ≤ newMaxFd

/-- What holds of the state of the scan. Before the first message the pipe is not ready. -/
def Progress (pipeFd writeFd : ℤ) (unread : Prop) (gFdSet : Finset ℤ) : SelectState → Prop
  | .copying => True
  | .selected fdsCpy => writeFd ∉ fdsCpy ∧ ∀ x ∈ fdsCpy, unread → x = pipeFd
  | .scanning fdsCpy fd newMaxFd =>
    writeFd ∉ fdsCpy ∧ (∀ x ∈ fdsCpy, ¬ unread) ∧
      Scanned pipeFd writeFd gFdSet fdsCpy fd newMaxFd
  | .pushing fdsCpy fd newMaxFd =>
    writeFd ∉ fdsCpy ∧ (∀ x ∈ fdsCpy, ¬ unread) ∧ fd ∈ fdsCpy ∧ fd ∉ gFdSet ∧
      Scanned pipeFd writeFd gFdSet fdsCpy fd newMaxFd

/-- No member of the set is forgotten; the write end of the pipe, which no set contains, keeps the
bound above the read end once a client has come. -/
structure Remembers (pipeFd writeFd : ℤ) (tr : List SelectEvent) (s : SelectThread) : Prop where
  pipe : pipeFd ∈ s.gFdSet
  le_max : ∀ x ∈ s.gFdSet, x ≤ s.gMaxFd
  nonneg : ∀ x ∈ s.gFdSet, 0 ≤ x
  write : writeFd ∉ s.gFdSet
  first : reads tr = [] → s.gFdSet = {pipeFd}
  later : reads tr ≠ [] → writeFd ≤ s.gMaxFd
  progress : Progress pipeFd writeFd (reads tr = []) s.gFdSet s.select

/-- The messages are about clients, and the first one is that of a new client. -/
structure Announced (writeFd : ℤ) (tr : List SelectEvent) : Prop where
  clients : ∀ message, some message ∈ reads tr → writeFd < message.value
  first : ∀ message ∈ (reads tr).head?, ∃ value, message = some (.newConnection value)

theorem Announced.before (h : Announced writeFd (tr ++ [l])) : Announced writeFd tr := by
  refine ⟨fun message hm => h.clients message ?_, fun message hm => h.first message ?_⟩
  · rw [reads_append]
    exact List.mem_append_left _ hm
  · rw [reads_append, List.head?_append_of_ne_nil _ (by rintro h; simp [h] at hm)]
    exact hm

/-- What the message read last says, when the earlier ones have been handled. -/
theorem Announced.last {message : Option PipeMessage}
    (h : Announced writeFd (tr ++ [.read message])) :
    (∀ m, message = some m → writeFd < m.value) ∧
      (reads tr = [] → ∃ value, message = some (.newConnection value)) := by
  have hr : reads (tr ++ [.read message]) = reads tr ++ [message] := reads_append ..
  refine ⟨?_, fun hn => h.first message (by rw [hr, hn]; rfl)⟩
  rintro m rfl
  exact h.clients m (by simp [hr])

@[simp] theorem reads_internal : reads (tr ++ [.internal]) = reads tr := by
  rw [reads_append]
  exact List.append_nil _

theorem Scanned.start {gFdSet fdsCpy : Finset ℤ} (h : ∀ x ∈ gFdSet, 0 ≤ x) (hw : 0 ≤ writeFd) :
    Scanned pipeFd writeFd gFdSet fdsCpy 0 0 where
  ready _ hx hlt := absurd (h _ hx) hlt.not_ge
  idle _ hx hlt := absurd (h _ hx) hlt.not_ge
  write hlt := absurd hw hlt.not_ge

theorem Scanned.notReady {gFdSet fdsCpy : Finset ℤ} {fd newMaxFd : ℤ}
    (h : Scanned pipeFd writeFd gFdSet fdsCpy fd newMaxFd) (hfd : fd ∉ fdsCpy) :
    Scanned pipeFd writeFd gFdSet fdsCpy (fd + 1) fd where
  ready x hx hlt hr := by
    refine h.ready x hx (lt_of_le_of_ne (Int.lt_add_one_iff.mp hlt) ?_) hr
    rintro rfl
    exact hfd hr
  idle _ _ hlt _ := by omega
  write hlt := by omega

/-- The scan passes over a ready descriptor that has been taken out of the set, or is the pipe. -/
theorem Scanned.skip {gFdSet fdsCpy : Finset ℤ} {fd newMaxFd : ℤ}
    (h : Scanned pipeFd writeFd gFdSet fdsCpy fd newMaxFd) (hfd : fd ∈ fdsCpy)
    (hw : writeFd ∉ fdsCpy) (hkept : fd ∈ gFdSet → fd = pipeFd) :
    Scanned pipeFd writeFd gFdSet fdsCpy (fd + 1) newMaxFd where
  ready x hx hlt hr := by
    rcases eq_or_lt_of_le (Int.lt_add_one_iff.mp hlt) with rfl | hlt
    · exact hkept hx
    · exact h.ready x hx hlt hr
  idle x hx hlt hr := by
    refine h.idle x hx (lt_of_le_of_ne (Int.lt_add_one_iff.mp hlt) ?_) hr
    rintro rfl
    exact hr hfd
  write hlt := by
    refine h.write (lt_of_le_of_ne (Int.lt_add_one_iff.mp hlt) ?_)
    rintro rfl
    exact hw hfd

theorem Scanned.erase {gFdSet fdsCpy : Finset ℤ} {fd newMaxFd : ℤ} (x : ℤ)
    (h : Scanned pipeFd writeFd gFdSet fdsCpy fd newMaxFd) :
    Scanned pipeFd writeFd (gFdSet.erase x) fdsCpy fd newMaxFd where
  ready y hy := h.ready y (Finset.mem_of_mem_erase hy)
  idle y hy := h.idle y (Finset.mem_of_mem_erase hy)
  write := h.write

theorem Remembers.start (hr : 0 ≤ pipeFd) (hends : pipeFd < writeFd) :
    Remembers pipeFd writeFd [] (initializeServer pipeFd) where
  pipe := Finset.mem_singleton_self pipeFd
  le_max _ hx := (Finset.mem_singleton.mp hx).le
  nonneg _ hx := Finset.mem_singleton.mp hx ▸ hr
  write hx := hends.ne' (Finset.mem_singleton.mp hx)
  first _ := rfl
  later h := absurd rfl h
  progress := trivial

/-- A message keeps the set below its bound, and lifts the bound above the write end. -/
theorem Remembers.receive {message : Option PipeMessage} (h : Remembers pipeFd writeFd tr s)
    (hw : 0 ≤ writeFd) (ha : Announced writeFd (tr ++ [.read message])) :
    (∀ x ∈ (s.receive message).gFdSet, x ≤ (s.receive message).gMaxFd ∧ 0 ≤ x ∧ x ≠ writeFd) ∧
      writeFd ≤ (s.receive message).gMaxFd := by
  obtain ⟨hclient, hfirst⟩ := ha.last
  have hold : ∀ x ∈ s.gFdSet, x ≤ s.gMaxFd ∧ 0 ≤ x ∧ x ≠ writeFd := fun x hx =>
    ⟨h.le_max x hx, h.nonneg x hx, fun hxw => h.write (hxw ▸ hx)⟩
  have hadded : ∀ value, writeFd < value →
      (∀ x ∈ insert value s.gFdSet, x ≤ max s.gMaxFd value ∧ 0 ≤ x ∧ x ≠ writeFd) ∧
        writeFd ≤ max s.gMaxFd value := by
    intro value hv
    refine ⟨fun x hx => ?_, hv.le.trans (le_max_right _ _)⟩
    rcases Finset.mem_insert.mp hx with rfl | hx
    · exact ⟨le_max_right _ _, hw.trans hv.le, hv.ne'⟩
    · obtain ⟨hle, hrest⟩ := hold x hx
      exact ⟨hle.trans (le_max_left _ _), hrest⟩
  match message, hclient, hfirst with
  | some (.newConnection value), hclient, _ => exact hadded value (hclient _ rfl)
  | some (.setConnection value), hclient, _ => exact hadded value (hclient _ rfl)
  | some (.remConnection value), _, hfirst =>
    exact ⟨hold, h.later fun hn => by simpa using hfirst hn⟩
  | none, _, hfirst => exact ⟨hold, h.later fun hn => by simpa using hfirst hn⟩

theorem Remembers.internal (h : Remembers pipeFd writeFd tr s) :
    Remembers pipeFd writeFd (tr ++ [.internal]) s := by
  refine ⟨h.pipe, h.le_max, h.nonneg, h.write, ?_, ?_, ?_⟩
  all_goals rw [reads_internal]
  exacts [h.first, h.later, h.progress]

theorem Remembers.step (hends : pipeFd < writeFd) (hw : 0 ≤ writeFd)
    (h : Remembers pipeFd writeFd tr s) (ha : Announced writeFd (tr ++ [l]))
    (hs : Step pipeFd s l t) : Remembers pipeFd writeFd (tr ++ [l]) t := by
  have hp := h.progress
  cases hs with
  | @select fdsCpy hs hset hmax =>
    refine .internal { h with progress := ⟨fun hx => h.write (hset hx), fun x hx hn => ?_⟩ }
    have hx : x ∈ s.gFdSet := hset hx
    rw [h.first hn] at hx
    exact Finset.mem_singleton.mp hx
  | @noMessage fdsCpy hs hpipe =>
    rw [hs] at hp
    refine .internal { h with progress := ⟨hp.1, fun x hx hn => hpipe ?_, .start h.nonneg hw⟩ }
    rwa [← hp.2 x hx hn]
  | @message fdsCpy message hs hpipe =>
    rw [hs] at hp
    obtain ⟨hall, hlater⟩ := h.receive hw ha
    have hread : reads (tr ++ [.read message]) ≠ [] := by
      simp [reads, SelectEvent.message]
    exact {
      pipe := s.mem_receive message h.pipe
      le_max := fun x hx => (hall x hx).1
      nonneg := fun x hx => (hall x hx).2.1
      write := fun hx => (hall _ hx).2.2 rfl
      first := fun hn => absurd hn hread
      later := fun _ => hlater
      progress := ⟨hp.1, fun _ _ => hread, .start (fun x hx => (hall x hx).2.1) hw⟩ }
  | notReady hs hle hfd =>
    rw [hs] at hp
    exact .internal { h with progress := ⟨hp.1, hp.2.1, hp.2.2.notReady hfd⟩ }
  | skipPipe hs hle hfd hpipe =>
    rw [hs] at hp
    exact .internal { h with progress := ⟨hp.1, hp.2.1, hp.2.2.skip hfd hp.1 fun _ => hpipe⟩ }
  | @clear fdsCpy fd newMaxFd hs hle hfd hpipe =>
    rw [hs] at hp
    have hread : reads tr ≠ [] := hp.2.1 fd hfd
    exact .internal {
      pipe := Finset.mem_erase.mpr ⟨hpipe.symm, h.pipe⟩
      le_max := fun x hx => h.le_max x (Finset.mem_of_mem_erase hx)
      nonneg := fun x hx => h.nonneg x (Finset.mem_of_mem_erase hx)
      write := fun hx => h.write (Finset.mem_of_mem_erase hx)
      first := fun hn => absurd hn hread
      later := h.later
      progress := ⟨hp.1, hp.2.1, hfd, Finset.notMem_erase fd _, hp.2.2.erase fd⟩ }
  | push hs =>
    rw [hs] at hp
    obtain ⟨hwrite, hread, hfd, hcleared, hscan⟩ := hp
    exact .internal { h with
      progress := ⟨hwrite, hread, hscan.skip hfd hwrite fun hx => absurd hx hcleared⟩ }
  | @scanned fdsCpy fd newMaxFd hs hgt =>
    rw [hs] at hp
    obtain ⟨-, hread, hscan⟩ := hp
    have hlift : reads tr ≠ [] → writeFd ≤ newMaxFd := fun hn =>
      hscan.write ((h.later hn).trans_lt hgt)
    refine .internal { h with le_max := fun x hx => ?_, later := hlift, progress := trivial }
    have hlt : x < fd := (h.le_max x hx).trans_lt hgt
    by_cases hx' : x ∈ fdsCpy
    -- only the pipe is ready and still in the set, and a message has come through it
    · rw [hscan.ready x hx hlt hx']
      exact hends.le.trans (hlift (hread x hx'))
    · exact hscan.idle x hx hlt hx'

theorem Remembers.run (hr : 0 ≤ pipeFd) (hends : pipeFd < writeFd)
    (h : Run (Step pipeFd) (initializeServer pipeFd) tr s) (ha : Announced writeFd tr) :
    Remembers pipeFd writeFd tr s := by
  refine h.invariant_trace (I := fun tr s => Announced writeFd tr → Remembers pipeFd writeFd tr s)
    (fun _ => .start hr hends) (fun ih hs ha => ?_) ha
  exact (ih ha.before).step hends (hr.trans hends.le) ha hs

/-- Whenever the select thread calls `select`, the bound covers the whole set, whatever has come
through the pipe and whatever has been ready. -/
theorem no_descriptor_forgotten {pipeFd writeFd : ℕ} {tr : List SelectEvent} {s : SelectThread}
    (hends : pipeFd < writeFd) (h : Run (Step pipeFd) (initializeServer pipeFd) tr s)
    (ha : Announced writeFd tr) :
    (pipeFd : ℤ) ∈ s.gFdSet ∧ ∀ fd ∈ s.gFdSet, fd ≤ s.gMaxFd := by
  have hr : Remembers pipeFd writeFd tr s :=
    .run (Int.natCast_nonneg pipeFd) (Int.ofNat_lt.mpr hends) h ha
  exact ⟨hr.pipe, hr.le_max⟩

/-- A first client comes, and the next call of `select` monitors it and the pipe. -/
theorem no_descriptor_forgotten_first :
    ∃ s, Run (Step 0) (initializeServer 0) [.internal, .read (some (.newConnection 2)), .internal,
        .internal, .internal, .internal] s ∧ s.select = .copying ∧ s.gFdSet = {2, 0} ∧
      s.gMaxFd = 2 ∧ (0 : ℤ) ∈ s.gFdSet ∧ ∀ fd ∈ s.gFdSet, fd ≤ s.gMaxFd := by
  have h : Run (Step 0) (initializeServer 0) ([] ++ [.internal] ++
      [.read (some (.newConnection 2))] ++ [.internal] ++ [.internal] ++ [.internal] ++
      [.internal]) ⟨{2, 0}, 2, .copying⟩ := by
    refine .next (.next (.next (.next (.next (.next .start
      (.select rfl (Finset.Subset.refl _) ?_)) (.message rfl ?_)) (.skipPipe rfl ?_ ?_ rfl))
      (.notReady rfl ?_ ?_)) (.notReady rfl ?_ ?_)) (.scanned rfl ?_)
    all_goals decide
  have hends : 0 < 1 := Nat.one_pos
  refine ⟨_, h, rfl, rfl, rfl, no_descriptor_forgotten hends h ⟨fun message hm => ?_, ?_⟩⟩
  · obtain rfl : message = .newConnection 2 := Option.some.inj (List.mem_singleton.mp hm)
    decide
  · intro message hm
    exact ⟨2, (Option.mem_some_iff.mp hm).symm⟩

end Forgotten
end SelectThread
end StorageServer.Server
