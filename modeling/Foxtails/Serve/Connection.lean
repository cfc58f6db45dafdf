/-
  One keep-alive connection: `worker_callback` called again and again on what `recv` brings.

  `serveConnection` is the sequence of requests handed to `fetch_response`, each with the
  buffer it was parsed from. A call ends its receive loop when the completion test holds or
  `recv` has nothing; the bytes it has then are parsed as one request, and the next call
  starts with an empty buffer.

  * `receives_loop`, `loop_receives`: the receive loop takes a run of chunks, up to where the
    test holds first or a stop.
  * `receives_iff`: in terms of the chunks, up to where a message is there (`Complete`).
  * `serveConnection_bytes`: the buffers are disjoint pieces of what was received.
  * `keep_alive_iff`: a list of well-formed requests is served as sent exactly when every
    request arrives in a run of chunks of its own.
-/
import Foxtails.Wire.Arrival
import Foxtails.Wire.RoundTrip

namespace Foxtails.Serve

open Foxtails.Lib.Scan Foxtails.Lib.Libc Foxtails.Wire

/-! ## The callback -/

/-- What a call of `worker_callback` does on its connection. -/
structure CallbackResult where
  /-- The request given to `fetch_response`, and the bytes it was parsed from. -/
  handed : Option (Http × Bytes)
  sent : Option Http
  /-- Whether the connection is armed again. Otherwise it is removed. -/
  kept : Bool
  rest : List RecvResult

/-- `worker_callback` for `WORKER_ACTION_NEW_CLIENT`. `rearmed` is whether `EPOLL_CTL_MOD`
    succeeds, `base` what `malloc` returns. -/
def workerCallback (fetch : Http → Http) (rearmed : Bool) (base : Nat)
    (results : List RecvResult) : CallbackResult :=
  let (buf, rest) := httpRecvMessage base true results
  if buf.length = 0 then { handed := none, sent := none, kept := false, rest := rest }
  else
    let req := httpRequestParse buf
    match req.path with
    | none => { handed := none, sent := some req, kept := false, rest := rest }
    | some _ =>
      { handed := some (req, buf), sent := some (fetch req),
        kept := httpIsKeepAlive req && rearmed, rest := rest }

theorem workerCallback_rest (fetch : Http → Http) (rearmed : Bool) (base : Nat)
    (results : List RecvResult) :
    (workerCallback fetch rearmed base results).rest =
      (recvLoop true { base := base } results).2 := by
  unfold workerCallback httpRecvMessage
  dsimp only
  split_ifs
  · rfl
  · split <;> rfl

/-- The calls on a connection, one for each readiness event. `malloc` gives the address of the
    buffer from the number of results still to come. -/
def serveConnection (fetch : Http → Http) (malloc : Nat → Nat) (results : List RecvResult) :
    List (Http × Bytes) :=
  if _h : results = [] then []
  else
    let c := workerCallback fetch true (malloc results.length) results
    match c.handed with
    | none => []
    | some x => x :: if c.kept then serveConnection fetch malloc c.rest else []
termination_by results.length
decreasing_by
  rw [workerCallback_rest]
  exact recvLoop_rest_lt true _ _h

/-! ## Runs of chunks -/

/-- The completion test holds after the last of these chunks, and after none before. -/
def EndsAt (s : RecvState) : List RecvResult → Prop
  | .data bytes junk base :: rest =>
    let s := recvData true bytes junk s
    if rest = [] then recvComplete s = true
    else recvComplete s = false ∧ EndsAt (recvGrow base s) rest
  | _ => False

/-- The completion test holds after none of these chunks. -/
def GoesOn (s : RecvState) : List RecvResult → Prop
  | [] => True
  | .data bytes junk base :: rest =>
    recvComplete (recvData true bytes junk s) = false ∧
      GoesOn (recvGrow base (recvData true bytes junk s)) rest
  | .stop :: _ => False

/-- The chunks of `run` are received by one call, which leaves `rest`: the test holds at their
    end, or a stop or the end of all results is there. -/
def Receives (s : RecvState) (run results rest : List RecvResult) : Prop :=
  (EndsAt s run ∧ results = run ++ rest) ∨
    (GoesOn s run ∧ (results = run ++ .stop :: rest ∨ (results = run ∧ rest = [])))

theorem receives_loop {run results rest : List RecvResult} {s : RecvState}
    (h : Receives s run results rest) :
    (recvLoop true s results).2 = rest ∧
      (recvLoop true s results).1.buf = s.buf ++ bytesOf run := by
  induction run generalizing s results with
  | nil =>
    rcases h with ⟨hend, -⟩ | ⟨-, rfl | ⟨rfl, rfl⟩⟩
    · exact hend.elim
    · exact ⟨rfl, by simp [recvLoop, bytesOf]⟩
    · exact ⟨rfl, by simp [recvLoop, bytesOf]⟩
  | cons r run ih =>
    cases r with
    | stop =>
      rcases h with ⟨hend, -⟩ | ⟨hon, -⟩
      · exact hend.elim
      · exact hon.elim
    | data bytes junk base =>
      -- Either the run ends here, or the same holds of what follows.
      have hcases : (recvComplete (recvData true bytes junk s) = true ∧ run = [] ∧
            results = .data bytes junk base :: rest) ∨
          (recvComplete (recvData true bytes junk s) = false ∧ ∃ more,
            results = .data bytes junk base :: more ∧
            Receives (recvGrow base (recvData true bytes junk s)) run more rest) := by
        rcases h with ⟨hend, rfl⟩ | ⟨⟨hc, hon⟩, hres⟩
        · rw [EndsAt] at hend
          split_ifs at hend with hnil
          · exact .inl ⟨hend, hnil, by rw [hnil]; rfl⟩
          · exact .inr ⟨hend.1, _, rfl, .inl ⟨hend.2, rfl⟩⟩
        · rcases hres with rfl | ⟨rfl, rfl⟩
          · exact .inr ⟨hc, _, rfl, .inr ⟨hon, .inl rfl⟩⟩
          · exact .inr ⟨hc, _, rfl, .inr ⟨hon, .inr ⟨rfl, rfl⟩⟩⟩
      rcases hcases with ⟨hc, rfl, rfl⟩ | ⟨hc, more, rfl, hrec⟩
      · rw [recvLoop, if_pos hc]
        exact ⟨rfl, by simp [bytesOf]⟩
      · obtain ⟨h1, h2⟩ := ih hrec
        rw [recvLoop, if_neg (by simp [hc])]
        exact ⟨h1, by rw [h2]; simp [bytesOf]⟩

theorem loop_receives (s : RecvState) (results : List RecvResult) :
    ∃ run, Receives s run results (recvLoop true s results).2 ∧
      (recvLoop true s results).1.buf = s.buf ++ bytesOf run := by
  suffices ∃ run, Receives s run results (recvLoop true s results).2 by
    obtain ⟨run, hrun⟩ := this
    exact ⟨run, hrun, (receives_loop hrun).2⟩
  induction results generalizing s with
  | nil => exact ⟨[], .inr ⟨trivial, .inr ⟨rfl, rfl⟩⟩⟩
  | cons r results ih =>
    cases r with
    | stop => exact ⟨[], .inr ⟨trivial, .inl rfl⟩⟩
    | data bytes junk base =>
      rw [recvLoop]
      by_cases hc : recvComplete (recvData true bytes junk s) = true
      · rw [if_pos hc]
        refine ⟨[.data bytes junk base], .inl ⟨?_, rfl⟩⟩
        rw [EndsAt, if_pos rfl]
        exact hc
      · rw [if_neg hc]
        rw [Bool.not_eq_true] at hc
        obtain ⟨run, hrun⟩ := ih (recvGrow base (recvData true bytes junk s))
        refine ⟨.data bytes junk base :: run, ?_⟩
        rcases hrun with ⟨hend, hres⟩ | ⟨hon, hres⟩
        · refine .inl ⟨?_, by rw [List.cons_append, ← hres]⟩
          have hne : run ≠ [] := fun hnil => by rw [hnil] at hend; exact hend.elim
          rw [EndsAt, if_neg hne]
          exact ⟨hc, hend⟩
        · refine .inr ⟨⟨hc, hon⟩, ?_⟩
          rcases hres with hres | ⟨hres, hrest⟩
          · exact .inl (by rw [List.cons_append, ← hres])
          · exact .inr ⟨by rw [← hres], hrest⟩

/-- A stop brings no bytes. -/
theorem Receives.bytes {s : RecvState} {run results rest : List RecvResult}
    (h : Receives s run results rest) : bytesOf results = bytesOf run ++ bytesOf rest := by
  rcases h with ⟨-, rfl⟩ | ⟨-, rfl | ⟨rfl, rfl⟩⟩
  · exact bytesOf_append run rest
  · rw [bytesOf_append]
    rfl
  · simp [bytesOf]

/-! ## Runs of chunks, without the loop -/

/-- `run` are chunks that follow on `before`, and a message is not there before the last of
    them. -/
def Awaits (base : Nat) (before run : List RecvResult) : Prop :=
  .stop ∉ run ∧ ∀ n < run.length, ¬ Complete base (before ++ run.take n)

theorem awaits_cons {base : Nat} {before : List RecvResult} (hnot : ¬ Complete base before)
    (bytes junk : Bytes) (base' : Nat) (run : List RecvResult) :
    Awaits base before (.data bytes junk base' :: run) ↔
      Awaits base (before ++ [.data bytes junk base']) run := by
  unfold Awaits
  simp only [List.mem_cons, reduceCtorEq, false_or, List.length_cons, Nat.forall_lt_succ_left,
    List.take_zero, List.append_nil, List.take_succ_cons, List.append_assoc, List.singleton_append,
    hnot, not_false_eq_true, true_and]

/-- The test holds first behind the last chunk when the message is there then, and not before. -/
theorem endsAt_iff {base : Nat} {before : List RecvResult} {s : RecvState}
    (h : Follows base before s) (hnot : ¬ Complete base before) (run : List RecvResult) :
    EndsAt s run ↔ Awaits base before run ∧ Complete base (before ++ run) := by
  induction run generalizing before s with
  | nil => simp [EndsAt, hnot]
  | cons r run ih =>
    cases r with
    | stop => simp [EndsAt, Awaits]
    | data bytes junk base' =>
      have htest := recvComplete_iff h bytes junk base'
      rw [awaits_cons hnot, EndsAt]
      by_cases hnil : run = []
      · simp only [hnil, if_true, htest, Awaits, List.not_mem_nil, not_false_eq_true, true_and,
          List.length_nil, Nat.not_lt_zero, false_imp_iff, implies_true]
      · rw [if_neg hnil, ← Bool.not_eq_true, htest]
        constructor
        · rintro ⟨hnext, hend⟩
          have := (ih (follows_next h bytes junk base') hnext).mp hend
          simpa using this
        · rintro ⟨hawait, hdone⟩
          have hnext : ¬ Complete base (before ++ [.data bytes junk base']) := by
            simpa using hawait.2 0 (List.length_pos_iff.mpr hnil)
          exact ⟨hnext, (ih (follows_next h bytes junk base') hnext).mpr
            ⟨hawait, by simpa using hdone⟩⟩

/-- The test holds behind none of the chunks when the message is not there with all of them. -/
theorem goesOn_iff {base : Nat} {before : List RecvResult} {s : RecvState}
    (h : Follows base before s) (hnot : ¬ Complete base before) (run : List RecvResult) :
    GoesOn s run ↔ Awaits base before run ∧ ¬ Complete base (before ++ run) := by
  induction run generalizing before s with
  | nil => simp [GoesOn, Awaits, hnot]
  | cons r run ih =>
    cases r with
    | stop => simp [GoesOn, Awaits]
    | data bytes junk base' =>
      rw [awaits_cons hnot, GoesOn, ← Bool.not_eq_true, recvComplete_iff h bytes junk base']
      constructor
      · rintro ⟨hnext, hon⟩
        simpa using (ih (follows_next h bytes junk base') hnext).mp hon
      · rintro ⟨hawait, hdone⟩
        have hnext : ¬ Complete base (before ++ [.data bytes junk base']) := by
          cases run with
          | nil => exact hdone
          | cons r run => simpa using hawait.2 0 (by simp)
        exact ⟨hnext, (ih (follows_next h bytes junk base') hnext).mpr
          ⟨hawait, by simpa using hdone⟩⟩

/-- The chunks `run` are the first of `results`, and one call takes them and leaves `rest`: a
    message is there with all of them and not before, or with none and nothing is behind them
    yet. `base` is what `malloc` returns. -/
structure Arrives (base : Nat) (run results rest : List RecvResult) : Prop where
  chunks : .stop ∉ run
  before : ∀ n < run.length, ¬ Complete base (run.take n)
  behind : if Complete base run then results = run ++ rest
    else results = run ++ .stop :: rest ∨ (results = run ∧ rest = [])

theorem receives_iff (base : Nat) (run results rest : List RecvResult) :
    Receives { base := base } run results rest ↔ Arrives base run results rest := by
  have hstart : ¬ Complete base [] := by rintro ⟨arrived, harrived, -⟩; cases harrived
  unfold Receives
  rw [endsAt_iff (follows_start base) hstart, goesOn_iff (follows_start base) hstart,
    List.nil_append]
  by_cases hc : Complete base run
  · constructor
    · rintro (⟨⟨hawait, -⟩, hres⟩ | ⟨⟨-, hno⟩, -⟩)
      · exact ⟨hawait.1, hawait.2, by rwa [if_pos hc]⟩
      · exact absurd hc hno
    · rintro ⟨hchunks, hbefore, hbehind⟩
      rw [if_pos hc] at hbehind
      exact .inl ⟨⟨⟨hchunks, hbefore⟩, hc⟩, hbehind⟩
  · constructor
    · rintro (⟨⟨-, hyes⟩, -⟩ | ⟨⟨hawait, -⟩, hres⟩)
      · exact absurd hyes hc
      · exact ⟨hawait.1, hawait.2, by rwa [if_neg hc]⟩
    · rintro ⟨hchunks, hbefore, hbehind⟩
      rw [if_neg hc] at hbehind
      exact .inr ⟨⟨⟨hchunks, hbefore⟩, hc⟩, hbehind⟩

/-! ## One call -/

/-- What a call does with the bytes of the run it received. -/
theorem serveConnection_receives (fetch : Http → Http) {malloc : Nat → Nat}
    {run results rest : List RecvResult} (hne : results ≠ [])
    (h : Receives { base := malloc results.length } run results rest) :
    serveConnection fetch malloc results =
      if bytesOf run = [] ∨ (httpRequestParse (bytesOf run)).path = none then []
      else (httpRequestParse (bytesOf run), bytesOf run) ::
        if httpIsKeepAlive (httpRequestParse (bytesOf run)) then
          serveConnection fetch malloc rest
        else [] := by
  obtain ⟨hrest, hbuf⟩ := receives_loop h
  rw [List.nil_append] at hbuf
  rw [serveConnection, dif_neg hne]
  unfold workerCallback httpRecvMessage
  simp only [hrest, hbuf, List.length_eq_zero_iff]
  by_cases hnil : bytesOf run = []
  · simp [hnil]
  · cases (httpRequestParse (bytesOf run)).path with
    | none => simp [hnil]
    | some p => simp [hnil]

/-- The buffers parsed are no longer than what was received. -/
theorem serveConnection_bytes (fetch : Http → Http) (malloc : Nat → Nat) (n : Nat)
    (results : List RecvResult) (hn : results.length ≤ n) :
    ((serveConnection fetch malloc results).map fun x => x.2.length).sum ≤
      (bytesOf results).length := by
  induction n generalizing results with
  | zero =>
    rw [List.length_eq_zero_iff.mp (Nat.le_zero.mp hn), serveConnection, dif_pos rfl]
    simp
  | succ n ih =>
    by_cases hne : results = []
    · rw [hne, serveConnection, dif_pos rfl]
      simp
    obtain ⟨run, hrun, -⟩ := loop_receives { base := malloc results.length } results
    have hlt := recvLoop_rest_lt true { base := malloc results.length } hne
    rw [serveConnection_receives fetch hne hrun, hrun.bytes, List.length_append]
    split_ifs
    · simp
    · have := ih (recvLoop true { base := malloc results.length } results).2 (by omega)
      rw [List.map_cons, List.sum_cons]
      exact Nat.add_le_add_left this _
    · simp

/-- Without bytes nothing is handed on. -/
theorem serveConnection_of_no_bytes (fetch : Http → Http) (malloc : Nat → Nat)
    {results : List RecvResult} (h : bytesOf results = []) :
    serveConnection fetch malloc results = [] := by
  by_cases hne : results = []
  · rw [hne, serveConnection, dif_pos rfl]
  · obtain ⟨run, hrun, -⟩ := loop_receives { base := malloc results.length } results
    have hbytes := hrun.bytes
    rw [h, eq_comm, List.append_eq_nil_iff] at hbytes
    rw [serveConnection_receives fetch hne hrun, if_pos (.inl hbytes.1)]

/-! ## A list of requests -/

/-- No header line `Connection: close`. -/
def KeepsAlive (r : Request) : Prop :=
  ∀ f ∈ r.fields, strcaseeq f.name (ascii "Connection") = true →
    strcaseeq f.value (ascii "close") = false

/-- Each request arrives in a run of chunks of its own. -/
def Aligned (malloc : Nat → Nat) : List Request → List RecvResult → Prop
  | [], _ => True
  | r :: reqs, results =>
    ∃ run rest, Arrives (malloc results.length) run results rest ∧
      bytesOf run = r.encode ∧ Aligned malloc reqs rest

theorem encode_ne_nil (r : Request) : r.encode ≠ [] := by
  simp [Request.encode]

theorem isKeepAlive_encode {r : Request} (h : r.WellFormed) (hkeep : KeepsAlive r) :
    httpIsKeepAlive (httpRequestParse r.encode) = true := by
  unfold httpIsKeepAlive httpGetHeader
  rw [httpRequestParse_encode h, attachBody_headers]
  simp only [HttpHeaders.get_setAll]
  cases hv : governingValue (ascii "Connection") r.headers with
  | none => rfl
  | some v =>
    obtain ⟨g, hg, hname, rfl⟩ := exists_of_governingValue hv
    obtain ⟨f, hf, rfl⟩ := List.mem_map.mp hg
    show (!strcaseeq f.value (ascii "close")) = true
    rw [hkeep f hf hname]
    rfl

theorem path_encode {r : Request} (h : r.WellFormed) :
    (httpRequestParse r.encode).path ≠ none := by
  rw [httpRequestParse_encode h, attachBody_path]
  simp

/-- The request handed on is the one sent, from a buffer that has all of its bytes. -/
def Served (r : Request) (x : Http × Bytes) : Prop := Same r x.1 ∧ r.encode <+: x.2

theorem served_length {reqs : List Request} {handed : List (Http × Bytes)}
    (h : List.Forall₂ Served reqs handed) :
    ((reqs.map Request.encode).flatten).length ≤ (handed.map fun x => x.2.length).sum := by
  induction h with
  | nil => simp
  | cons hx _ ih =>
    rw [List.map_cons, List.flatten_cons, List.length_append, List.map_cons, List.sum_cons]
    exact Nat.add_le_add hx.2.length_le ih

/-- Requests served as sent arrived each in its own run, and fit the header table. -/
theorem aligned_of_served (fetch : Http → Http) (malloc : Nat → Nat) (reqs : List Request)
    (results : List RecvResult) (hwf : ∀ r ∈ reqs, r.WellFormed)
    (hbytes : bytesOf results = (reqs.map Request.encode).flatten)
    (h : List.Forall₂ Served reqs (serveConnection fetch malloc results)) :
    Aligned malloc reqs results ∧ ∀ r ∈ reqs, (lowerNames r.headers).card ≤ httpMaxHeaders := by
  induction reqs generalizing results with
  | nil => exact ⟨trivial, by simp⟩
  | cons r reqs ih =>
    have hne : results ≠ [] := by
      rintro rfl
      rw [List.map_cons, List.flatten_cons, eq_comm, bytesOf, List.append_eq_nil_iff] at hbytes
      exact encode_ne_nil r hbytes.1
    obtain ⟨run, hrun, -⟩ := loop_receives { base := malloc results.length } results
    set rest := (recvLoop true { base := malloc results.length } results).2 with hrest
    rw [serveConnection_receives fetch hne hrun] at h
    split_ifs at h with hnone hkeep
    · cases h
    all_goals
      obtain ⟨hhead, htail⟩ := List.forall₂_cons.mp h
      -- The first buffer is not longer than the first request, as the others need their bytes.
      have htotal := hrun.bytes
      rw [hbytes, List.map_cons, List.flatten_cons] at htotal
      have hlen := served_length htail
      have hle : (bytesOf run).length ≤ r.encode.length := by
        have := congrArg List.length htotal
        simp only [List.length_append] at this
        have hserve := serveConnection_bytes fetch malloc rest.length rest (Nat.le_refl _)
        first
          | omega
          | (simp only [List.map_nil, List.sum_nil, Nat.le_zero] at hlen; omega)
      have heq : r.encode = bytesOf run := hhead.2.eq_of_length_le hle
      have hcard := (same_iff (hwf r List.mem_cons_self)).mp (heq ▸ hhead.1)
      rw [← heq, List.append_cancel_left_eq] at htotal
    · obtain ⟨hal, hcards⟩ := ih rest (fun x hx => hwf x (List.mem_cons_of_mem _ hx))
        htotal.symm htail
      exact ⟨⟨run, rest, (receives_iff _ _ _ _).mp hrun, heq.symm, hal⟩,
        List.forall_mem_cons.mpr ⟨hcard, hcards⟩⟩
    · obtain rfl := List.forall₂_nil_right_iff.mp htail
      exact ⟨⟨run, rest, (receives_iff _ _ _ _).mp hrun, heq.symm, trivial⟩,
        List.forall_mem_cons.mpr ⟨hcard, by simp⟩⟩

/-- Requests that arrive each in their own run, and fit the header table, are served as sent. -/
theorem served_of_aligned (fetch : Http → Http) (malloc : Nat → Nat) (reqs : List Request)
    (results : List RecvResult) (hwf : ∀ r ∈ reqs, r.WellFormed)
    (hkeep : ∀ r ∈ reqs.dropLast, KeepsAlive r)
    (hbytes : bytesOf results = (reqs.map Request.encode).flatten)
    (hal : Aligned malloc reqs results)
    (hcard : ∀ r ∈ reqs, (lowerNames r.headers).card ≤ httpMaxHeaders) :
    List.Forall₂ Served reqs (serveConnection fetch malloc results) := by
  induction reqs generalizing results with
  | nil =>
    rw [serveConnection_of_no_bytes fetch malloc hbytes]
    exact .nil
  | cons r reqs ih =>
    obtain ⟨run, rest, harrives, hrunbytes, hal⟩ := hal
    have hrun := (receives_iff _ _ _ _).mpr harrives
    have hr := hwf r List.mem_cons_self
    have hne : results ≠ [] := by
      rintro rfl
      rw [List.map_cons, List.flatten_cons, eq_comm, bytesOf, List.append_eq_nil_iff] at hbytes
      exact encode_ne_nil r hbytes.1
    have htotal := hrun.bytes
    rw [hbytes, hrunbytes, List.map_cons, List.flatten_cons, List.append_cancel_left_eq] at htotal
    have hserved : Served r (httpRequestParse r.encode, r.encode) :=
      ⟨(same_iff hr).mpr (hcard r List.mem_cons_self), List.prefix_rfl⟩
    rw [serveConnection_receives fetch hne hrun, hrunbytes,
      if_neg (by simp [encode_ne_nil, path_encode hr])]
    refine .cons hserved ?_
    cases reqs with
    | nil =>
      split_ifs
      · rw [serveConnection_of_no_bytes fetch malloc htotal.symm]
        exact .nil
      · exact .nil
    | cons r' reqs =>
      rw [if_pos (isKeepAlive_encode hr (hkeep r (by simp)))]
      refine ih rest (fun x hx => hwf x (List.mem_cons_of_mem _ hx)) (fun x hx => ?_)
        htotal.symm hal fun x hx => hcard x (List.mem_cons_of_mem _ hx)
      exact hkeep x (by simpa using Or.inr hx)

/-- **Requests are served as sent exactly when each arrives in its own run of chunks**: for
    every list of well-formed requests, of which only the last may close the connection, and
    every way their bytes are cut into results of `recv`, at any buffer addresses. -/
theorem keep_alive_iff (fetch : Http → Http) (malloc : Nat → Nat) (reqs : List Request)
    (results : List RecvResult) (hwf : ∀ r ∈ reqs, r.WellFormed)
    (hkeep : ∀ r ∈ reqs.dropLast, KeepsAlive r)
    (hbytes : bytesOf results = (reqs.map Request.encode).flatten) :
    List.Forall₂ Served reqs (serveConnection fetch malloc results) ↔
      Aligned malloc reqs results ∧ ∀ r ∈ reqs, (lowerNames r.headers).card ≤ httpMaxHeaders :=
  ⟨aligned_of_served fetch malloc reqs results hwf hbytes,
    fun h => served_of_aligned fetch malloc reqs results hwf hkeep hbytes h.1 h.2⟩

/-- `GET /` with one header line. -/
def smallGet (name : Bytes) : Request :=
  { method := .get, path := ascii "/", fields := [⟨name, 1, ascii "b"⟩], body := [] }

theorem smallGet_wellFormed : (smallGet (ascii "A")).WellFormed where
  path := by decide
  fields := ⟨by decide, by
    intro f hf
    rw [List.mem_singleton.mp hf]
    exact ⟨by decide, by decide⟩⟩
  length := by
    intro f hf hname
    rw [List.mem_singleton.mp hf] at hname
    exact absurd hname (by decide)
  hasLength := fun h => absurd rfl h
  size := by decide

/-- A form of five bytes. -/
def smallPost : Request :=
  { method := .post, path := ascii "/form", fields := [⟨ascii "Content-Length", 1, ascii "5"⟩],
    body := ascii "hello" }

theorem smallPost_wellFormed : smallPost.WellFormed where
  path := by decide
  fields := ⟨by decide, List.forall_mem_singleton.mpr ⟨by decide, by decide⟩⟩
  length := List.forall_mem_singleton.mpr fun _ =>
    ⟨by decide, List.all_eq_true.mp (by decide), by decide⟩
  hasLength := fun _ => ⟨_, List.mem_singleton_self _, rfl⟩
  size := by decide

/-- The last request of a connection. -/
def closingGet : Request :=
  { method := .get, path := ascii "/bye", fields := [⟨ascii "Connection", 1, ascii "close"⟩],
    body := [] }

theorem closingGet_wellFormed : closingGet.WellFormed where
  path := by decide
  fields := ⟨by decide, List.forall_mem_singleton.mpr ⟨by decide, by decide⟩⟩
  length := List.forall_mem_singleton.mpr fun hname => absurd hname (by decide)
  hasLength := fun h => absurd rfl h
  size := by decide

/-- The form in three chunks, cut in its head and in its body. -/
def postChunks : List RecvResult :=
  [.data (ascii "POST /form HT") [] 65536,
    .data (ascii "TP/1.1\r\nContent-Length: 5\r\n\r\nhe") [] 65536,
    .data (ascii "llo") [] 65536]

/-- `smallGet`, cut in the blank line. -/
def getChunks : List RecvResult :=
  [.data (ascii "GET / HTTP/1.1\r\nA: b\r\n\r") [] 65536, .data (ascii "\n") [] 65536]

def closingChunks : List RecvResult := [.data closingGet.encode [] 65536]

/-- A form, a request and a last one, in six chunks: `keep_alive_iff` where all are served. -/
theorem keep_alive_iff_three :
    List.Forall₂ Served [smallPost, smallGet (ascii "A"), closingGet]
      (serveConnection id (fun _ => 65536) (postChunks ++ (getChunks ++ closingChunks))) := by
  refine (keep_alive_iff id (fun _ => 65536) [smallPost, smallGet (ascii "A"), closingGet]
    (postChunks ++ (getChunks ++ closingChunks)) ?_ ?_ (by decide)).mpr ⟨?_, ?_⟩
  · intro r hr
    simp only [List.mem_cons, List.not_mem_nil, or_false] at hr
    rcases hr with rfl | rfl | rfl
    · exact smallPost_wellFormed
    · exact smallGet_wellFormed
    · exact closingGet_wellFormed
  · intro r hr
    simp only [List.dropLast_cons_cons, List.dropLast_singleton, List.mem_cons, List.not_mem_nil,
      or_false] at hr
    rcases hr with rfl | rfl
    · exact List.forall_mem_singleton.mpr fun hname => absurd hname (by decide)
    · exact List.forall_mem_singleton.mpr fun hname => absurd hname (by decide)
  · have hpost : Arrives 65536 postChunks (postChunks ++ (getChunks ++ closingChunks))
        (getChunks ++ closingChunks) := ⟨by decide, by decide, by rw [if_pos (by decide)]⟩
    have hget : Arrives 65536 getChunks (getChunks ++ closingChunks) closingChunks :=
      ⟨by decide, by decide, by rw [if_pos (by decide)]⟩
    have hclosing : Arrives 65536 closingChunks closingChunks [] :=
      ⟨by decide, by decide, by rw [if_pos (by decide), List.append_nil]⟩
    exact ⟨_, _, hpost, by decide, _, _, hget, by decide, _, _, hclosing, by decide, trivial⟩
  · decide

/-- Two requests in one chunk: the second is not served. -/
theorem pipelined_lost :
    (∀ r ∈ [smallGet (ascii "A"), smallGet (ascii "A")], r.WellFormed ∧ KeepsAlive r) ∧
    ¬ List.Forall₂ Served [smallGet (ascii "A"), smallGet (ascii "A")]
      (serveConnection id (fun _ => 65536)
        [.data ((smallGet (ascii "A")).encode ++ (smallGet (ascii "A")).encode) [] 65536]) := by
  constructor
  · intro r hr
    have hr : r = smallGet (ascii "A") := by simpa using hr
    subst hr
    refine ⟨smallGet_wellFormed, fun f hf hname => ?_⟩
    rw [List.mem_singleton.mp hf] at hname
    exact absurd hname (by decide)
  · have hrun : Receives { base := 65536 }
        [.data ((smallGet (ascii "A")).encode ++ (smallGet (ascii "A")).encode) [] 65536]
        [.data ((smallGet (ascii "A")).encode ++ (smallGet (ascii "A")).encode) [] 65536] [] := by
      refine .inl ⟨?_, rfl⟩
      rw [EndsAt, if_pos rfl]
      decide
    rw [serveConnection_receives id (by simp) hrun, serveConnection, dif_pos rfl]
    intro h
    have hlen := h.length_eq
    split_ifs at hlen <;> simp at hlen

end Foxtails.Serve
