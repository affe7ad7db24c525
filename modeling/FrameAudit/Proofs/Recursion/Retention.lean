import FrameAudit.Proofs.Recursion.Refinement

/-! # What the cache retains of recursive calls

A run that is made after others of the same table restores calls that these have kept. Where
signatures call each other, a call is kept while others that it leads to are still being analysed,
so that the later run may miss reports (`BehaviourTable.pingPong`). What it misses was reported by
an earlier run, except for explicit dispatches, and it misses nothing if it shares no such recursion
with them (`BehaviourTable.tips_retained`). -/

namespace FrameAudit.BehaviourTable

variable {table : BehaviourTable} {config : Config} {session : Session} {region : Set Signature}

/-! ## The calls that a session keeps -/

theorem keptIn_empty (config : Config) (signature : Signature) :
    keptIn config ({} : Session).cache signature = none := by
  rw [keptIn, Cache.get?_empty]
  rfl

theorem filled_empty (table : BehaviourTable) (config : Config) :
    table.Filled config ({} : Session).cache :=
  fun _ _ hcall => nomatch hcall.symm.trans (Cache.get?_empty _)

/-- Driving a table succeeds and is a run of it, which finds the tips of the reports. -/
theorem run_drive_session (hsound : config.policy.strictness = .sound)
    (h : table.Filled config session.cache) (entries : List Signature) : ∃ a,
      (table.drive entries).run (session.analysis config) = .ok () a ∧
      table.Filled config a.cache ∧
      table.Runs (keptIn config session.cache) entries (tips a.conclude.1.reports)
        (keptIn config a.cache) := by
  have hdriven : table.Driven config (session.analysis config) :=
    ⟨.start config session.cache, rfl, hsound, h⟩
  obtain ⟨a, found, hrun, h', -, hruns, htips⟩ := run_drive hdriven rfl entries
  have hfound : tips a.conclude.1.reports = found := by
    rw [Analysis.reports_conclude, htips]
    exact (congrArg (· ∪ found) tips_nil).trans (Set.empty_union found)
  exact ⟨a, hrun, h'.filled, hfound ▸ hruns⟩

theorem runs_sessionAfter (hsound : config.policy.strictness = .sound)
    (h : table.Filled config session.cache) (entries : List Signature) :
    table.Filled config (table.sessionAfter config session entries).cache ∧
      table.Runs (keptIn config session.cache) entries
        (tips (table.runReports config session entries))
        (keptIn config (table.sessionAfter config session entries).cache) := by
  obtain ⟨a, hrun, h', hruns⟩ := run_drive_session hsound h entries
  rw [runReports, sessionAfter, hrun]
  exact ⟨h', hruns⟩

theorem filled_foldl_sessionAfter (hsound : config.policy.strictness = .sound)
    (h : table.Filled config session.cache) (earlier : List (List Signature)) :
    table.Filled config (earlier.foldl (table.sessionAfter config) session).cache := by
  induction earlier generalizing session with
  | nil => exact h
  | cons entries earlier ih => exact ih (runs_sessionAfter hsound h entries).1

/-- What the runs of a session have visited is accounted for by all their reports. -/
theorem accounts_foldl_sessionAfter {visited : Set Signature} {before : Set Tip}
    (hsound : config.policy.strictness = .sound) (h : table.Filled config session.cache)
    (ha : table.Accounts visited before [] (keptIn config session.cache))
    (earlier : List (List Signature)) : ∃ visited',
      table.Accounts visited' (before ∪ tips (table.sessionReports config session earlier)) []
        (keptIn config (earlier.foldl (table.sessionAfter config) session).cache) := by
  induction earlier generalizing session visited before with
  | nil => exact ⟨visited, ha.mono Set.subset_union_left⟩
  | cons entries earlier ih =>
    obtain ⟨h', hruns⟩ := runs_sessionAfter hsound h entries
    obtain ⟨visited₁, -, ha₁, -⟩ := hruns.accounts ha
    obtain ⟨visited', ha'⟩ := ih h' ha₁
    rw [Set.union_assoc, ← tips_append] at ha'
    exact ⟨visited', ha'⟩

/-- The runs of a session keep whole calls if what they reach in the region is solitary. -/
theorem whole_foldl_sessionAfter (hsound : config.policy.strictness = .sound)
    (h : table.Filled config session.cache) (hregion : table.Closed region)
    (hw : table.Whole region (keptIn config session.cache)) (earlier : List (List Signature))
    (hsolitary : ∀ entries ∈ earlier, ∀ entry ∈ entries, ∀ last ∈ region,
      table.Reaches entry last → table.Solitary last) :
    table.Whole region
      (keptIn config (earlier.foldl (table.sessionAfter config) session).cache) := by
  induction earlier generalizing session with
  | nil => exact hw
  | cons entries earlier ih =>
    obtain ⟨h', hruns⟩ := runs_sessionAfter hsound h entries
    obtain ⟨hentries, hearlier⟩ := List.forall_mem_cons.1 hsolitary
    exact ih h' (hruns.whole hregion hentries hw) hearlier

/-! ## Fresh and warm sessions -/

/-- What is reached from some entries. -/
def reachedFrom (table : BehaviourTable) (entries : List Signature) : Set Signature :=
  {signature | ∃ entry ∈ entries, table.Reaches entry signature}

theorem closed_reachedFrom (table : BehaviourTable) (entries : List Signature) :
    table.Closed (table.reachedFrom entries) :=
  fun _ _ ⟨entry, hmem, hreach⟩ hlast => ⟨entry, hmem, hreach.trans hlast⟩

/-- With the sound policy, a run succeeds in a fresh session and after any runs of the table in the
session. Up to the path that leads to the last step, what it reports in the fresh session is
reported there by the run or by an earlier one. Excepted are explicit dispatches, for which a callee
takes the blame while it is being analysed. If no signature that is reached both by the run and by
an earlier one is called back by others, then the run itself reports everything. -/
theorem tips_retained (table : BehaviourTable) {config : Config}
    (hsound : config.policy.strictness = .sound) (earlier : List (List Signature))
    (entries : List Signature) :
    let session := earlier.foldl (table.sessionAfter config) {}
    (∃ a, (table.drive entries).run (Session.analysis {} config) = .ok () a) ∧
    (∃ a, (table.drive entries).run (session.analysis config) = .ok () a) ∧
    (∀ ρ ∈ table.runReports config {} entries, ρ.kind ≠ .invalidInvoke →
      ρ.tip ∈ tips (table.sessionReports config {} earlier) ∪
        tips (table.runReports config session entries)) ∧
    ((∀ signature ∈ table.reachedFrom earlier.flatten ∩ table.reachedFrom entries,
        table.Solitary signature) →
      ∀ ρ ∈ table.runReports config {} entries,
        ρ.tip ∈ tips (table.runReports config session entries)) := by
  intro session
  have hempty := filled_empty table config
  have hnone := keptIn_empty config
  have hfilled : table.Filled config session.cache :=
    filled_foldl_sessionAfter hsound hempty earlier
  have hbare := (runs_sessionAfter hsound hempty entries).2
  have hrich := (runs_sessionAfter hsound hfilled entries).2
  refine ⟨(run_drive_session hsound hempty entries).imp fun _ h => h.1,
    (run_drive_session hsound hfilled entries).imp fun _ h => h.1, fun ρ hρ hkind => ?_,
    fun hsolitary ρ hρ => ?_⟩
  · -- what is found is possible beneath an entry, and the session has visited all entries
    obtain ⟨entry, hentry, hpossible⟩ := (hbare.within (.of_none hnone)).2 (mem_tips hρ)
    have hstart : table.Accounts ∅ ∅ [] (keptIn config ({} : Session).cache) := .of_none hnone
    obtain ⟨visited, ha⟩ := accounts_foldl_sessionAfter hsound hempty hstart earlier
    obtain ⟨visited', -, ha', hentries⟩ := hrich.accounts ha
    rw [Set.empty_union] at ha'
    exact ha'.mem_of_possible (hentries entry hentry) hpossible hkind
  · -- where this run gets, the earlier ones have kept whole calls
    have hregion := closed_reachedFrom table entries
    have hwhole := whole_foldl_sessionAfter hsound hempty hregion (.of_none hnone) earlier
      fun before hbefore start hstart last hlast hreach =>
        hsolitary last ⟨⟨start, List.mem_flatten_of_mem hbefore hstart, hreach⟩, hlast⟩
    exact hbare.lockstep hregion hwhole hrich (fun entry hentry => ⟨entry, hentry, .refl⟩)
      (.of_none hnone) (mem_tips hρ)

/-- Two signatures that call each other, one of which minds the result of the other. -/
def pingPong : BehaviourTable :=
  [(⟨"main", []⟩, .body [.call ⟨"main", 1⟩ ⟨"ping", []⟩] .any [] none),
    (⟨"ping", []⟩, .body [.call ⟨"ping", 11⟩ ⟨"pong", []⟩,
      .hook ⟨"ping", 12⟩ (.dispatchCall [] ⟨⟨[]⟩, .bottom, some 0⟩)] .any [] none),
    (⟨"pong", []⟩, .body [.hook ⟨"pong", 20⟩ (.queryReturnType 0),
      .call ⟨"pong", 21⟩ ⟨"ping", []⟩] .any [] none)]

/-- A signature that calls itself. -/
def countdown : BehaviourTable :=
  [(⟨"main", []⟩, .body [.call ⟨"main", 1⟩ ⟨"count", []⟩] .any [] none),
    (⟨"count", []⟩, .body [.hook ⟨"count", 5⟩ (.queryReturnType 0),
      .call ⟨"count", 6⟩ ⟨"count", []⟩] .any [] none)]

theorem solitary_countdown (signature : Signature) : countdown.Solitary signature := by
  have hcalls : ∀ ⦃s callee⦄, countdown.Calls s callee → callee = ⟨"count", []⟩ := by
    have hall : ∀ entry ∈ countdown, ∀ callee ∈ entry.2.calls.map Prod.snd,
        callee = ⟨"count", []⟩ := by decide
    exact fun s callee hcall => hall _ (mem_of_calls hcall) callee hcall
  have hreaches : ∀ ⦃s last⦄, countdown.Reaches s last → last = s ∨ last = ⟨"count", []⟩ :=
    fun s last hreach => (Relation.ReflTransGen.cases_tail hreach).imp id
      fun ⟨_, _, hcall⟩ => hcalls hcall
  intro other hthere hback
  rcases hreaches hthere with h | rfl
  · exact h
  · exact (hreaches hback).elim Eq.symm Eq.symm

/-- In a fresh session `pong` is analysed beneath `ping`. In the other one `ping` was analysed
beneath `pong`, and is restored without either report. -/
theorem tips_retained_pingPong :
    let config : Config := { policy := .sound }
    let main : Signature := ⟨"main", []⟩
    let pong : Signature := ⟨"pong", []⟩
    let pongs : Tip := (.invalidReturnTypeCall, some ⟨pong, ⟨"pong", 20⟩⟩)
    let counts : Tip := (.invalidReturnTypeCall, some ⟨⟨"count", []⟩, ⟨"count", 5⟩⟩)
    (pingPong.runReports config {} [main]).map Report.tip =
        [(.invalidInvoke, some ⟨⟨"ping", []⟩, ⟨"ping", 12⟩⟩), pongs] ∧
      (pingPong.sessionReports config {} [[pong], [main]]).map Report.tip = [pongs] ∧
      pingPong.runReports config (pingPong.sessionAfter config {} [pong]) [main] = [] ∧
      pongs ∈ tips (pingPong.sessionReports config {} [[pong]]) ∧
      counts ∈ tips (countdown.runReports config (countdown.sessionAfter config {} [main])
        [main]) := by
  intro config main pong pongs counts
  have hsound : config.policy.strictness = .sound := rfl
  have hfresh : (pingPong.runReports config {} [main]).map Report.tip =
      [(.invalidInvoke, some ⟨⟨"ping", []⟩, ⟨"ping", 12⟩⟩), pongs] := by decide +kernel
  have hwarm : pingPong.runReports config (pingPong.sessionAfter config {} [pong]) [main] = [] := by
    decide +kernel
  have hcount : (countdown.runReports config {} [main]).map Report.tip = [counts] := by
    decide +kernel
  refine ⟨hfresh, by decide +kernel, hwarm, ?_, ?_⟩
  · obtain ⟨-, -, hkinds, -⟩ := tips_retained pingPong hsound [[pong]] [main]
    obtain ⟨ρ, hρ, htip⟩ : ∃ ρ ∈ pingPong.runReports config {} [main], ρ.tip = pongs :=
      List.mem_map.1 (hfresh ▸ List.mem_cons_of_mem _ List.mem_cons_self)
    have hkind : ρ.kind ≠ .invalidInvoke := fun h => nomatch (congrArg Prod.fst htip).symm.trans h
    have hpongs := hkinds ρ hρ hkind
    rwa [List.foldl_cons, List.foldl_nil, hwarm, tips_nil, Set.union_empty, htip] at hpongs
  · obtain ⟨-, -, -, hall⟩ := tips_retained countdown hsound [[main]] [main]
    obtain ⟨ρ, hρ, htip⟩ : ∃ ρ ∈ countdown.runReports config {} [main], ρ.tip = counts :=
      List.mem_map.1 (hcount ▸ List.mem_cons_self)
    exact htip ▸ hall (fun signature _ => solitary_countdown signature) ρ hρ

end FrameAudit.BehaviourTable
