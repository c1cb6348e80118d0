import Tachyon.Proofs.Clock
import Tachyon.Proofs.Deliveries
import Tachyon.Proofs.Framing
import Tachyon.Proofs.Pipeline
import Tachyon.Proofs.Turns

/-!
# `Tachyon.Proofs.Exchange`: a conversation with a client

What a client gets to see. It pipelines requests, one or more in a chunk, and reads its connection
with an HTTP reader that knows no more than the bytes.

`client_reads_responses` puts the parts together: the chunks are parsed once and in order
(`exists_answered_chunks`), the requests of a chunk are told apart (`findsAll_of_clean`), each
response is framed (`framed_of_line`), and the sends transmit what was answered
(`sendsIntact_invariant`). So the reader finds one response for each request, in order. What the
client waits for is not answered yet, and at a wait of the server there is nothing of that
(`cleared_of_waiting`).
-/

set_option autoImplicit false

namespace Tachyon

open HttpReader (Framed)

/-! ### The answers to one client -/

/-- The chunks of a client. -/
def chunksOf (c : Nat) (chunks : List (Nat × List UInt8)) : List (List UInt8) :=
  (chunks.filter fun x => x.1 = c).map Prod.snd

theorem chunksOf_cons (c : Nat) (x : Nat × List UInt8) (chunks : List (Nat × List UInt8)) :
    chunksOf c (x :: chunks) = if x.1 = c then x.2 :: chunksOf c chunks else chunksOf c chunks := by
  simp only [chunksOf, List.filter_cons, decide_eq_true_eq]
  split <;> rfl

theorem chunksOf_append (c : Nat) (chunks more : List (Nat × List UInt8)) :
    chunksOf c (chunks ++ more) = chunksOf c chunks ++ chunksOf c more := by
  rw [chunksOf, List.filter_append, List.map_append]
  rfl

/-- The date was formatted, or it is the one from before the first second. -/
def Date.Given (date : Date) : Prop := date.Formed ∨ date = Date.zero

theorem framed_of_given {date : Date} (h : date.Given) (method path : List UInt8) :
    Framed (Handler.response date method path) := by
  rcases h with hformed | rfl
  · exact Handler.framed_response hformed method path
  · exact Handler.framed_of_line (by decide +kernel) (by decide +kernel) method path

/-- The requests of a chunk can be told apart in it. -/
structure ToldApart (reqs : List Http.Request) : Prop where
  clean : Http.Clean reqs (Slice.ofList (Http.pipeline reqs))
  unambiguous : Http.Unambiguous (Slice.ofList (Http.pipeline reqs))

/-- The message is the response to the request, with a date from the server's clock. -/
def Responds (r : Http.Request) (message : List UInt8) : Prop :=
  ∃ date : Date, date.Given ∧ message = Handler.response date r.method.bytes r.target

theorem framed_of_responds {reqs : List Http.Request} {messages : List (List UInt8)}
    (h : List.Forall₂ Responds reqs messages) : ∀ m ∈ messages, Framed m := by
  induction h with
  | nil =>
    intro m hm
    cases hm
  | cons hresponds _ ih =>
    intro m hm
    rcases List.mem_cons.mp hm with rfl | hrest
    · obtain ⟨date, hgiven, rfl⟩ := hresponds
      exact framed_of_given hgiven _ _
    · exact ih m hrest

/-- One message for each request of a chunk. -/
theorem responsesTo_pipeline {reqs : List Http.Request} (h : ToldApart reqs) (date : Date) :
    responsesTo date (Http.pipeline reqs)
      = (reqs.map fun r => Handler.response date r.method.bytes r.target).flatten := by
  have hbytes := Slice.bytes_ofList (Http.pipeline reqs)
  exact Http.replies_of_findsAll hbytes
    (Http.findsAll_of_clean hbytes h.unambiguous h.clean) date

theorem forall₂_responds {date : Date} (h : date.Given) (reqs : List Http.Request) :
    List.Forall₂ Responds reqs
      (reqs.map fun r => Handler.response date r.method.bytes r.target) := by
  induction reqs with
  | nil => exact .nil
  | cons r reqs ih => exact .cons ⟨date, h, rfl⟩ ih

/-- The answers to a client are one message for each of its requests. -/
theorem exists_messages (c : Nat) {done : List (Date × Nat × List UInt8)}
    (hdates : ∀ a ∈ done, a.1.Given) {asked : List (List Http.Request)}
    (hasked : chunksOf c (done.map Prod.snd) = asked.map Http.pipeline)
    (hapart : ∀ reqs ∈ asked, ToldApart reqs) :
    ∃ messages, Answering.answersTo responsesTo c done = messages.flatten ∧
      List.Forall₂ Responds asked.flatten messages := by
  induction done generalizing asked with
  | nil =>
    have hnone : asked = [] := List.map_eq_nil_iff.mp hasked.symm
    rw [hnone]
    exact ⟨[], rfl, .nil⟩
  | cons a done ih =>
    have hgiven := hdates a List.mem_cons_self
    have hlater : ∀ b ∈ done, b.1.Given := fun b hb => hdates b (List.mem_cons_of_mem a hb)
    have hanswers : Answering.answersTo responsesTo c (a :: done)
        = (if a.2.1 = c then responsesTo a.1 a.2.2 else [])
          ++ Answering.answersTo responsesTo c done := List.flatMap_cons
    rw [List.map_cons, chunksOf_cons] at hasked
    by_cases hc : a.2.1 = c
    · -- The oldest chunk is from this client, and it is a pipeline.
      rw [if_pos hc] at hasked
      obtain ⟨reqs, rest, rfl, hchunk, hrest⟩ := List.map_eq_cons_iff.mp hasked.symm
      obtain ⟨messages, hmessages, hresponds⟩ := ih hlater hrest.symm
        fun other hmem => hapart other (List.mem_cons_of_mem reqs hmem)
      have hreqs := hapart reqs List.mem_cons_self
      refine ⟨(reqs.map fun r => Handler.response a.1 r.method.bytes r.target) ++ messages, ?_, ?_⟩
      · rw [hanswers, if_pos hc, ← hchunk, responsesTo_pipeline hreqs, hmessages,
          List.flatten_append]
      · rw [List.flatten_cons]
        exact List.rel_append (forall₂_responds hgiven reqs) hresponds
    · -- A chunk of another client.
      rw [if_neg hc] at hasked
      obtain ⟨messages, hmessages, hresponds⟩ := ih hlater hasked hapart
      refine ⟨messages, ?_, hresponds⟩
      rw [hanswers, if_neg hc, List.nil_append, hmessages]

/-- A chunk of one request, with no other start in it. -/
theorem toldApart_singleton {r : Http.Request} (hlen : 34 ≤ r.bytes.length)
    (hshort : r.lineEnd < 32)
    (hone : ∀ p < r.bytes.length, Http.IsStart (Slice.ofList r.bytes).ptr p → p = 0) :
    ToldApart [r] := by
  have hpipeline : Http.pipeline [r] = r.bytes := by
    rw [Http.pipeline, List.map_singleton, List.flatten_singleton]
  have hbytes := Slice.bytes_ofList r.bytes
  have hread : Http.ReadsAt (Slice.ofList r.bytes).ptr 0 r.bytes := hbytes
  have hfirst := (Http.at_of_readsAt hread).firstSpace
  have hmethod := Http.length_method_le r
  have hzero : ∀ p, Http.IsStart (Slice.ofList r.bytes).ptr p → p + 32 ≤ r.bytes.length → p = 0 :=
    fun p hstart hle => hone p (by omega) hstart
  constructor <;> rw [hpipeline]
  · refine ⟨?_, ?_, ?_, ?_⟩
    · -- The only request begins at 0.
      intro q hq
      rw [List.mem_singleton.mp hq]
      show 0 + 32 ≤ r.bytes.length
      omega
    · intro q hq
      rw [List.mem_singleton.mp hq]
      exact hshort
    · intro q hq
      rw [List.mem_singleton.mp hq]
      exact Nat.zero_lt_succ 49
    · intro p hstart hnot hle _
      rw [hzero p hstart hle] at hnot
      exact absurd List.mem_cons_self hnot
  · refine ⟨?_, ?_⟩
    · intro p hstart hle _
      rw [hzero p hstart hle, Http.scanEnd]
      show 0 < 32 * ((r.bytes.length - 2) / 32)
      omega
    · intro p hstart hle _ hedge
      rw [hzero p hstart hle] at hedge
      exact hedge.2 _ (by omega) hfirst.1

namespace Reactor

variable {s : Reactor}

/-! ### The conversation -/

/-- No response is written over bytes to be sent, and the clock gives dates without line ends. -/
def Converses (s : Reactor) (a : Act) : Prop :=
  OverwritesNothing s a ∧ Formats Date.Formed s a

/-- Nothing is pending when the server waits and no completion has arrived. -/
theorem inbox_of_waiting (h : s.Reachable) (hpc : s.pc = .waiting) (hnone : s.kern.cq = []) :
    s.inbox = [] := by
  have hcq : s.view.kern.cq = [] := by
    show s.cq ++ s.kern.cq = []
    rw [(cleared_of_waiting h hpc).1.2, hnone]
    rfl
  rw [inbox, View.inbox, hcq]
  rfl

/-- A client on its connection whose chunks are pipelines of well-formed requests, and whose sends
were complete. What it was sent, what is under way and what is in its output buffer is a stream
that an HTTP reader splits into one response for each of the requests that were answered, in
order. The requests that were not answered are those in the chunks that wait. At a wait without
completions there are none, and the output buffer is empty. -/
theorem client_reads_responses {s₀ : Reactor} {as : List Act} {c : Nat}
    {asked : List (List Http.Request)} (hstart : Started s₀)
    (hplain : s₀.srv.ubKernelDma = false) (hrun : Run step Converses s₀ as s)
    (hgo : ¬ s.Stopped) (hconn : s.view.Connected c) (hfull : FullySent (outputOf c s.log))
    (hasked : chunksOf c (Run.collect step delivered s₀ as) = asked.map Http.pipeline)
    (hapart : ∀ reqs ∈ asked, ToldApart reqs) :
    ∃ (answered waiting : List (List Http.Request)) (messages : List (List UInt8))
      (lake : OutBuffer),
      answered ++ waiting = asked ∧ chunksOf c s.inbox = waiting.map Http.pipeline ∧
      s.srv.clientOutBuffers.get c = some lake ∧
      sentTo c s.log ++ (underWay s.view c).flatMap OutSlice.snapshot ++ lake.asSlice
        = messages.flatten ∧
      HttpReader.readAll messages.length messages.flatten = some messages ∧
      List.Forall₂ Responds answered.flatten messages ∧
      (s.pc = .waiting → s.kern.cq = [] → waiting = [] ∧ lake.asSlice = []) := by
  -- Every response carries a date of the clock, or the zeros from before the first second.
  have hdated : Run step (fun u _ => u.pc = .process → u.srv.date.Given) s₀ as s := by
    have hgiven : Run step (fun u a => Converses u a ∧ u.srv.date.Given) s₀ as s := by
      refine date_of_run ?_ (.inr rfl) hstart hrun
      intro u a hu
      cases a with
      | kernel k => trivial
      | server inp => exact fun hpc hclock => .inl (hu.2 hpc hclock)
    refine hgiven.weaken ?_
    intro u _ hu _
    exact hu.2
  obtain ⟨done, hdates, _, hall, hreplied⟩ := exists_answered_chunks hstart hplain hdated
  have hsplit := hall hgo
  rw [← hsplit, chunksOf_append] at hasked
  obtain ⟨answered, waiting, rfl, hanswered, hwaiting⟩ := List.map_eq_append_iff.mp hasked.symm
  obtain ⟨messages, hmessages, hresponds⟩ := exists_messages c hdates hanswered.symm
    fun reqs hmem => hapart reqs (List.mem_append_left _ hmem)
  -- The sends transmit the responses.
  have hreach : s.Reachable := ⟨s₀, as, hstart, hrun.weaken fun _ _ _ => trivial⟩
  obtain ⟨lake, hlake, hintact⟩ :=
    exists_intact ⟨s₀, as, hstart, hrun.weaken fun _ _ h => h.1⟩ hconn
  refine ⟨answered, waiting, messages, lake, rfl, hwaiting.symm, hlake, ?_, ?_, hresponds, ?_⟩
  · rw [← hmessages, ← hreplied c]
    exact (hintact.account hfull).symm
  · exact HttpReader.readAll_flatten (framed_of_responds hresponds) (Nat.le_refl _)
  · -- At a wait all output is flushed, and every delivered chunk is parsed.
    intro hpc hnone
    rw [inbox_of_waiting hreach hpc hnone] at hwaiting
    refine ⟨List.map_eq_nil_iff.mp hwaiting, ?_⟩
    have hlen : lake.len = 0 := (cleared_of_waiting hreach hpc).1.len_eq hlake
    refine List.eq_nil_of_length_eq_zero ?_
    rw [SmallLake.length_asSlice]
    exact hlen

/-- The second after the first wait. -/
def nextSecond : Input := ⟨1, someDate, true, true⟩

/-- Client 100 asks for `/plaintext`, gets the response, asks for `/json` and gets that response. -/
def twoExchanges : List Act :=
  connect ++ [.kernel (.recvData 0 0 Http.plaintext.bytes true)]
    ++ List.replicate 22 (.server nextSecond)
    ++ [.kernel (.sendDone 0 204), .kernel (.recvData 0 1 Http.json.bytes true)]
    ++ List.replicate 22 (.server nextSecond) ++ [.kernel (.sendDone 0 224)]

/-- No send of the client at hand is under way, and the clock shows the given date. -/
def conversing (s : Reactor) : Act → Bool
  | .server inp => noneUnderWay s (.server inp) &&
      (inp.clock = s.srv.synced || inp.date.bytes = someDate.bytes)
  | .kernel _ => true

theorem converses_of_conversing (s : Reactor) (a : Act) (h : conversing s a = true) :
    Converses s a := by
  cases a with
  | kernel k => exact ⟨⟨trivial, trivial⟩, trivial⟩
  | server inp =>
    simp only [conversing, Bool.and_eq_true, Bool.or_eq_true, decide_eq_true_eq] at h
    obtain ⟨hnone, hdate⟩ := h
    refine ⟨overwritesNothing_of_noneUnderWay hnone, fun _ hclock => ?_⟩
    have hformed : someDate.Formed :=
      ⟨ascii "Thu, 01 Jan 1970 00:00:00 GMT", by decide +kernel, by decide +kernel⟩
    rw [Date.Formed, hdate.resolve_left hclock]
    exact hformed

theorem client_reads_responses_two : ∃ (s : Reactor) (messages : List (List UInt8)),
    (sentTo 100 s.log).length = 428 ∧
      sentTo 100 s.log ++ (underWay s.view 100).flatMap OutSlice.snapshot = messages.flatten ∧
      HttpReader.readAll messages.length messages.flatten = some messages ∧
      List.Forall₂ Responds [Http.plaintext, Http.json] messages := by
  have hboot : ∃ bs, Run step (fun u a => Converses u a ∧ u.delivered a = []) started bs ready := by
    refine run_calm fun u hu => ⟨⟨overwritesNothing_of_booting calm hu, fun _ hclock => ?_⟩, rfl⟩
    exact absurd hu.synced_eq.symm hclock
  obtain ⟨bs, hready⟩ := hboot
  have hexec : (Run.exec step conversing ready twoExchanges).any (fun s =>
      connectedOn s 100 5 1 && s.pc = .waiting && s.kern.cq.isEmpty
        && (sentTo 100 s.log).length = 428
        && (doneFor 100 s.log).all fun o => o.2 = o.1.len) = true := by
    decide +kernel
  obtain ⟨s, hrun, hp⟩ := Run.exists_of_exec converses_of_conversing hexec
  simp only [Bool.and_eq_true, decide_eq_true_eq, List.isEmpty_iff, List.all_eq_true] at hp
  obtain ⟨⟨⟨⟨hconn, hpc⟩, hnone⟩, hsent⟩, hleft⟩ := hp
  have hall := (hready.weaken fun _ _ h => h.1).trans hrun
  have hgo : ¬ s.Stopped := by
    rintro ⟨why, hstop⟩
    rw [hpc] at hstop
    cases hstop
  have hconnected := connected_of_connectedOn hconn
  have hfull : FullySent (outputOf 100 s.log) := by
    refine (fullySent_iff_done ?_ hconnected).mpr hleft
    exact ⟨started, _, started_started, hall.weaken fun _ _ h => h.1.2⟩
  have hasked : chunksOf 100 (Run.collect step delivered started (bs ++ twoExchanges))
      = [[Http.plaintext], [Http.json]].map Http.pipeline := by
    rw [Run.collect_append hready, Run.collect_of_guard (fun _ _ h => h.2) hready]
    decide +kernel
  have hapart : ∀ reqs ∈ [[Http.plaintext], [Http.json]], ToldApart reqs := by
    intro reqs hmem
    simp only [List.mem_cons, List.not_mem_nil, or_false] at hmem
    rcases hmem with rfl | rfl
    · exact toldApart_singleton (by decide +kernel) (by decide +kernel) (by decide +kernel)
    · exact toldApart_singleton (by decide +kernel) (by decide +kernel) (by decide +kernel)
  obtain ⟨answered, waiting, messages, lake, hasks, _, _, hstream, hreads, hresponds, hwait⟩ :=
    client_reads_responses started_started rfl hall hgo hconnected hfull hasked hapart
  obtain ⟨rfl, hlake⟩ := hwait hpc hnone
  rw [List.append_nil] at hasks
  rw [hlake, List.append_nil] at hstream
  rw [hasks] at hresponds
  exact ⟨s, messages, hsent, hstream, hreads, hresponds⟩

end Reactor

end Tachyon
