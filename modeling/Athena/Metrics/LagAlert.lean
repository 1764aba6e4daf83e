import Athena.Library.AlertRule
import Athena.Metrics.LoggerSync
import Mathlib.Algebra.Order.Ring.Rat

/-!
# The alert on the lag of the logger sync

`LoggerSyncLagHigh` of `data_pipeline.rules.yml` on the file that the runs of
`emit_logger_sync_metric.py` leave. Prometheus scrapes the file and evaluates
the rule at times of its own. What it makes of that is a parameter, of which the
documented behaviour is assumed: an expression sees the sample of the newest
scrape for five minutes, unless that scrape failed or found none.
-/

namespace Athena

namespace LagAlert

open LoggerSync AlertRule

/-- A scrape, with the value of the gauge that it found. -/
structure Scrape where
  time : ℚ
  found : Option ℚ

/-- What a scrape finds in the file, which sample an expression gets at a time after some
scrapes, and what becomes of an alert with a hold time at an evaluation. -/
structure Prometheus where
  read : Option (List Char) → Option ℚ
  select : List Scrape → ℚ → Option ℚ
  evaluate : ℚ → Phase ℚ → ℚ → Bool → Phase ℚ

/-- How far back an expression looks for a sample. -/
def lookback : ℚ := 300

/-- What the documentation of Prometheus and of the textfile collector says of them. -/
structure Prometheus.Documented (p : Prometheus) : Prop where
  no_file : p.read none = none
  gauge : ∀ value exitCode duration, |value| ≤ 2 ^ 53 →
    p.read (some (renderBody value exitCode duration)) = some (value : ℚ)
  unscraped : ∀ time, p.select [] time = none
  newest : ∀ scrapes taken value time,
    (scrapes ++ [⟨taken, some value⟩]).Pairwise (fun a b => a.time < b.time) → taken ≤ time →
    time < taken + lookback → p.select (scrapes ++ [⟨taken, some value⟩]) time = some value
  outdated : ∀ scrapes scrape time,
    (scrapes ++ [scrape]).Pairwise (fun a b => a.time < b.time) →
    scrape.time + lookback < time → p.select (scrapes ++ [scrape]) time = none
  vanished : ∀ scrapes taken time,
    (scrapes ++ [⟨taken, none⟩]).Pairwise (fun a b => a.time < b.time) → taken ≤ time →
    p.select (scrapes ++ [⟨taken, none⟩]) time = none
  resolved : ∀ hold phase time, p.evaluate hold phase time false = .inactive
  raised : ∀ hold time, p.evaluate hold .inactive time true = settle hold time time
  pending : ∀ hold activeAt time,
    p.evaluate hold (.pending activeAt) time true = settle hold activeAt time
  firing : ∀ hold activeAt time,
    p.evaluate hold (.firing activeAt) time true = .firing activeAt

theorem Prometheus.Documented.evaluate_eq {p : Prometheus} (h : p.Documented) :
    p.evaluate = AlertRule.evaluate := by
  funext hold phase time active
  unfold AlertRule.evaluate
  cases active with
  | false => exact h.resolved hold phase time
  | true =>
    rw [if_pos rfl]
    cases phase with
    | inactive => exact h.raised hold time
    | pending activeAt => exact h.pending hold activeAt time
    | firing activeAt => exact h.firing hold activeAt time

/-- The two sides of the `or` have different labels, and so alerts of their own. -/
inductive Labels
  | missing
  | series
  deriving DecidableEq, Repr

/-- `expr`: `absent(..)` without the series, `time() - .. > 120` with it. -/
def expr (gauge : Option ℚ) (time : ℚ) : Labels → Bool
  | .missing => gauge.isNone
  | .series => gauge.any fun value => 120 < time - value

/-- `for: 30s`. -/
def hold : ℚ := 30

/-- A run of the emitter, a scrape that succeeds or fails, or an evaluation of the rule. -/
inductive Event
  | emit (e : Emission)
  | scrape (time : ℚ) (up : Bool)
  | evaluate (time : ℚ)

/-- The file, the scrapes, and the alerts. -/
structure State where
  file : Option (List Char)
  scrapes : List Scrape
  alert : Labels → Phase ℚ

def State.start : State := ⟨none, [], fun _ => .inactive⟩

section Run

variable (p : Prometheus)

/-- An emitter that raises leaves the file as it is. -/
def step (s : State) : Event → State
  | .emit e =>
    match main s.file e with
    | .ok text => { s with file := some text }
    | .error _ => s
  | .scrape time up =>
    { s with scrapes := s.scrapes ++ [⟨time, if up then p.read s.file else none⟩] }
  | .evaluate time =>
    { s with alert := fun labels =>
        p.evaluate hold (s.alert labels) time (expr (p.select s.scrapes time) time labels) }

def run (events : List Event) : State := events.foldl (step p) State.start

theorem run_append (events : List Event) (e : Event) :
    run p (events ++ [e]) = step p (run p events) e := by
  simp [run]

end Run

/-- The run of the emitter that an event is, unless its exit status is no number. -/
def Event.report : Event → Option Emission
  | .emit e => if e.code.isSome then some e else none
  | .scrape _ _ | .evaluate _ => none

@[simp] theorem Event.report_scrape (time : ℚ) (up : Bool) : (scrape time up).report = none := rfl

@[simp] theorem Event.report_evaluate (time : ℚ) : (evaluate time).report = none := rfl

def reports (events : List Event) : List Emission := events.filterMap Event.report

/-- What some of the events stand for, each together with all that has come before it. -/
def marksFrom {α : Type*} (mark : List Event → Event → Option α) (before : List Event) :
    List Event → List α
  | [] => []
  | e :: events => (mark before e).toList ++ marksFrom mark (before ++ [e]) events

/-- An evaluation of the rule, with all that has come before it. -/
structure Moment where
  before : List Event
  time : ℚ

/-- A scrape, with the runs that had published by then if it succeeds. -/
structure Look where
  time : ℚ
  runs : List Emission

def Event.moment (before : List Event) : Event → Option Moment
  | .evaluate time => some ⟨before, time⟩
  | .emit _ | .scrape _ _ => none

def Event.look (before : List Event) : Event → Option Look
  | .scrape time up => some ⟨time, if up then reports before else []⟩
  | .emit _ | .evaluate _ => none

def moments (events : List Event) : List Moment := marksFrom Event.moment [] events

def looks (events : List Event) : List Look := marksFrom Event.look [] events

/-- The runs that an evaluation at a time knows of: those that the last scrape has seen, if it is
not too long ago. -/
def known (events : List Event) (time : ℚ) : List Emission :=
  match (looks events).getLast? with
  | some look => if time < look.time + lookback then look.runs else []
  | none => []

section Marks

variable {α : Type*} (mark : List Event → Event → Option α)

theorem marksFrom_append (before events : List Event) (e : Event) :
    marksFrom mark before (events ++ [e]) =
      marksFrom mark before events ++ (mark (before ++ events) e).toList := by
  induction events generalizing before with
  | nil => simp [marksFrom]
  | cons x events ih => simp [marksFrom, ih]

theorem marksFrom_mono {events events' : List Event} (h : events <+: events') :
    marksFrom mark [] events <+: marksFrom mark [] events' := by
  obtain ⟨after, rfl⟩ := h
  induction after using List.reverseRecOn with
  | nil => rw [List.append_nil]
  | append_singleton after e ih =>
    rw [← List.append_assoc, marksFrom_append]
    exact ih.trans (List.prefix_append _ _)

theorem moments_append (events : List Event) (e : Event) :
    moments (events ++ [e]) = moments events ++ (e.moment events).toList :=
  marksFrom_append Event.moment [] events e

theorem looks_append (events : List Event) (e : Event) :
    looks (events ++ [e]) = looks events ++ (e.look events).toList :=
  marksFrom_append Event.look [] events e

theorem reports_append (events : List Event) (e : Event) :
    reports (events ++ [e]) = reports events ++ e.report.toList := by
  rw [reports, List.filterMap_append]
  cases hreport : e.report <;> simp [reports, hreport]

@[simp] theorem reports_nil : reports [] = [] := rfl

theorem reports_cons (e : Event) (events : List Event) :
    reports (e :: events) = e.report.toList ++ reports events := by
  cases hreport : e.report <;> simp [reports, hreport]

theorem reports_mono {before events : List Event} (h : before <+: events) :
    reports before <+: reports events := h.filterMap Event.report

theorem before_of_mem_moments {events : List Event} {m : Moment} (hm : m ∈ moments events) :
    m.before <+: events := by
  induction events using List.reverseRecOn with
  | nil => cases hm
  | append_singleton events e ih =>
    have hfront : events <+: events ++ [e] := List.prefix_append _ _
    rw [moments_append] at hm
    rcases List.mem_append.mp hm with hm | hm
    · exact (ih hm).trans hfront
    · cases e with
      | evaluate time =>
        obtain rfl := List.mem_singleton.mp hm
        exact hfront
      | emit e => cases hm
      | scrape time up => cases hm

theorem runs_of_mem_looks {events : List Event} {l : Look} (hl : l ∈ looks events) :
    l.runs <+: reports events := by
  induction events using List.reverseRecOn with
  | nil => cases hl
  | append_singleton events e ih =>
    have hfront : reports events <+: reports (events ++ [e]) :=
      reports_mono (List.prefix_append _ _)
    rw [looks_append] at hl
    rcases List.mem_append.mp hl with hl | hl
    · exact (ih hl).trans hfront
    · cases e with
      | scrape time up =>
        obtain rfl := List.mem_singleton.mp hl
        dsimp only
        split_ifs
        · exact hfront
        · exact List.nil_prefix
      | emit e => cases hl
      | evaluate time => cases hl

theorem known_prefix_reports (events : List Event) (time : ℚ) :
    known events time <+: reports events := by
  unfold known
  split
  · case h_1 l hl =>
    split_ifs
    · exact runs_of_mem_looks (List.mem_of_getLast? hl)
    · exact List.nil_prefix
  · exact List.nil_prefix

theorem run_alert {p : Prometheus} (h : p.Documented) (events : List Event) (labels : Labels) :
    (run p events).alert labels =
      AlertRule.run hold Moment.time
        (fun m => expr (p.select (run p m.before).scrapes m.time) m.time labels)
        (moments events) := by
  induction events using List.reverseRecOn with
  | nil => rfl
  | append_singleton events e ih =>
    rw [run_append, moments_append]
    cases e with
    | emit e =>
      rw [Event.moment, Option.toList_none, List.append_nil, ← ih, step]
      cases main (run p events).file e <;> rfl
    | scrape time up =>
      rw [Event.moment, Option.toList_none, List.append_nil, ← ih]
      rfl
    | evaluate time =>
      rw [Event.moment, Option.toList_some, AlertRule.run_append, ← ih, step, h.evaluate_eq]

end Marks

/-- The clocks read between 1 and `2 ^ 53` seconds at the runs, and more than two minutes at the
evaluations; none goes backwards. A scrape is stamped no later than the evaluations that come
after it, and none of these exactly at the end of its five minutes. -/
structure Timely (events : List Event) : Prop where
  clocks : ∀ e ∈ reports events, 1 ≤ e.nowUnix ∧ e.nowUnix ≤ 2 ^ 53
  forward : (reports events).Pairwise fun e e' => e.nowUnix ≤ e'.nowUnix
  scrapesForward : (looks events).Pairwise fun l l' => l.time < l'.time
  times : ∀ m ∈ moments events, 120 < m.time
  timesForward : (moments events).Pairwise fun m m' => m.time ≤ m'.time
  order : ∀ m ∈ moments events, ∀ l ∈ (looks m.before).getLast?,
    l.time ≤ m.time ∧ m.time ≠ l.time + lookback

section Gauge

variable {p : Prometheus}

theorem valid_of_mem_reports {events : List Event}
    (h : ∀ e ∈ reports events, 1 ≤ e.nowUnix ∧ e.nowUnix ≤ 2 ^ 53) {e : Emission}
    (he : e ∈ reports events) : e.Valid := by
  refine ⟨?_, h e he⟩
  obtain ⟨x, -, hx⟩ := List.mem_filterMap.mp he
  cases x with
  | emit x =>
    simp only [Event.report] at hx
    split_ifs at hx with hcode
    cases hx
    exact hcode
  | scrape => cases hx
  | evaluate time => cases hx

theorem main_of_code_eq_none {e : Emission} (he : e.code = none) (output : Option (List Char)) :
    main output e = .error .systemExit := by
  unfold Emission.code at he
  unfold main
  cases hraw : parseExitCode e.exitCode.toList with
  | error err => rfl
  | ok code =>
    rw [hraw] at he
    cases he

theorem run_file {events : List Event}
    (h : ∀ e ∈ reports events, 1 ≤ e.nowUnix ∧ e.nowUnix ≤ 2 ^ 53) :
    emitted (reports events) = .ok (run p events).file := by
  induction events using List.reverseRecOn with
  | nil => rfl
  | append_singleton events e ih =>
    rw [reports_append] at h ⊢
    obtain ⟨hbefore, hlast⟩ := List.forall_mem_append.mp h
    have hfile := ih hbefore
    rw [run_append]
    cases e with
    | scrape => rwa [Event.report, Option.toList_none, List.append_nil]
    | evaluate time => rwa [Event.report, Option.toList_none, List.append_nil]
    | emit e =>
      cases hcode : e.code with
      | none =>
        have hfailed : main (run p events).file e = .error .systemExit :=
          main_of_code_eq_none hcode _
        rw [Event.report, hcode, step, hfailed]
        exact (List.append_nil (reports events)).symm ▸ hfile
      | some code =>
        have hreport : Event.report (.emit e) = some e := by rw [Event.report, hcode]; rfl
        rw [hreport] at hlast ⊢
        have hvalid : e.Valid := ⟨hcode ▸ rfl, hlast e (by simp)⟩
        obtain ⟨output, houtput, hread⟩ :=
          emitted_readable fun x hx => valid_of_mem_reports hbefore hx
        cases hfile.symm.trans houtput
        obtain ⟨_, -, hmain⟩ := main_eq hvalid hread
        rw [step, hmain]
        exact emittedBy_append_ok hfile hmain

def gaugeOf (es : List Emission) : Option ℚ :=
  if es = [] then none else some (lastSuccess es : ℚ)

theorem read_emitted (hp : p.Documented) {es : List Emission} (h : ∀ e ∈ es, e.Valid)
    {output : Option (List Char)} (houtput : emitted es = .ok output) :
    p.read output = gaugeOf es := by
  induction es using List.reverseRecOn with
  | nil =>
    cases houtput
    exact hp.no_file
  | append_singleton es e _ =>
    obtain ⟨hbefore, hlast⟩ := List.forall_mem_append.mp h
    obtain ⟨before, hes, hread⟩ := emitted_readable hbefore
    obtain ⟨code, -, hmain⟩ := main_eq (hlast e (by simp)) hread
    cases (emittedBy_append_ok hes hmain).symm.trans houtput
    have hbounds := lastSuccess_bounds h
    rw [← lastSuccess_append, gaugeOf, if_neg (by simp)]
    exact hp.gauge _ code e.duration (abs_le.mpr ⟨by omega, hbounds.2⟩)

def Look.scrape (l : Look) : Scrape := ⟨l.time, gaugeOf l.runs⟩

theorem run_scrapes (hp : p.Documented) {events : List Event}
    (h : ∀ e ∈ reports events, 1 ≤ e.nowUnix ∧ e.nowUnix ≤ 2 ^ 53) :
    (run p events).scrapes = (looks events).map Look.scrape := by
  induction events using List.reverseRecOn with
  | nil => rfl
  | append_singleton events e ih =>
    rw [reports_append] at h
    have hbefore := (List.forall_mem_append.mp h).1
    rw [run_append, looks_append, List.map_append, ← ih hbefore]
    cases e with
    | scrape time up =>
      have hread : p.read (run p events).file = gaugeOf (reports events) :=
        read_emitted hp (fun e he => valid_of_mem_reports hbefore he) (run_file hbefore)
      cases up with
      | true => rw [step, Event.look, if_pos rfl, if_pos rfl, hread]; rfl
      | false => rfl
    | evaluate time => exact (List.append_nil _).symm
    | emit e =>
      rw [step]
      cases main (run p events).file e <;> exact (List.append_nil _).symm

theorem select_scrapes (hp : p.Documented) {events : List Event} (h : Timely events) {m : Moment}
    (hm : m ∈ moments events) :
    p.select (run p m.before).scrapes m.time = gaugeOf (known m.before m.time) := by
  have hfront := before_of_mem_moments hm
  have hsorted : (looks m.before).Pairwise fun l l' => l.time < l'.time :=
    h.scrapesForward.sublist (marksFrom_mono Event.look hfront).sublist
  have horder := h.order m hm
  rw [run_scrapes hp fun e he => h.clocks e ((reports_mono hfront).subset he), known]
  rcases List.eq_nil_or_concat (looks m.before) with hnil | ⟨front, l, hconcat⟩
  · rw [hnil]
    exact hp.unscraped m.time
  · rw [List.concat_eq_append] at hconcat
    rw [hconcat] at hsorted horder ⊢
    have hscrapes : (front.map Look.scrape ++ [l.scrape]).Pairwise fun a b => a.time < b.time := by
      rw [← List.map_singleton, ← List.map_append, List.pairwise_map]
      exact hsorted
    obtain ⟨hbefore, hend⟩ := horder l (by simp)
    rw [List.map_append, List.map_singleton, List.getLast?_concat]
    dsimp only
    split_ifs with hfresh
    · by_cases hruns : l.runs = []
      · have hfound : l.scrape = ⟨l.time, none⟩ := by rw [Look.scrape, gaugeOf, if_pos hruns]
        rw [hfound] at hscrapes ⊢
        rw [hp.vanished _ _ _ hscrapes hbefore, gaugeOf, if_pos hruns]
      · have hfound : l.scrape = ⟨l.time, some (lastSuccess l.runs : ℚ)⟩ := by
          rw [Look.scrape, gaugeOf, if_neg hruns]
        rw [hfound] at hscrapes ⊢
        rw [hp.newest _ _ _ _ hscrapes hbefore hfresh, gaugeOf, if_neg hruns]
    · exact hp.outdated _ _ _ hscrapes (lt_of_le_of_ne (not_lt.mp hfresh) hend.symm)

end Gauge

section Alerts

variable {p : Prometheus}

/-- Under a clock that does not go back, the last success is long ago exactly if all are. -/
theorem lastSuccess_lt_iff {es : List Emission}
    (hforward : es.Pairwise fun e e' => e.nowUnix ≤ e'.nowUnix) {time : ℚ} (htime : 120 < time) :
    120 < time - lastSuccess es ↔ ∀ e ∈ es, e.Succeeded → e.nowUnix + 120 < time := by
  induction es using List.reverseRecOn with
  | nil => simpa [lastSuccess] using htime
  | append_singleton es e ih =>
    obtain ⟨hbefore, -, hlast⟩ := List.pairwise_append.mp hforward
    rw [lastSuccess_append, List.forall_mem_append, List.forall_mem_singleton]
    split_ifs with hsucceeded
    · constructor
      · intro hlag
        have hold : (e.nowUnix : ℚ) + 120 < time := by linarith
        refine ⟨fun x hx _ => ?_, fun _ => hold⟩
        have hle : (x.nowUnix : ℚ) ≤ e.nowUnix := by
          exact_mod_cast hlast x hx e (List.mem_singleton_self e)
        linarith
      · intro hall
        have hold := hall.2 hsucceeded
        linarith
    · rw [ih hbefore]
      exact ⟨fun hall => ⟨hall, fun hs => absurd hs hsucceeded⟩, fun hall => hall.1⟩

/-- What the alert is about: no run is known at this evaluation, or some are and none of them has
succeeded within two minutes. -/
def Moment.Lagging (m : Moment) : Labels → Prop
  | .missing => known m.before m.time = []
  | .series => known m.before m.time ≠ [] ∧
      ∀ e ∈ known m.before m.time, e.Succeeded → e.nowUnix + 120 < m.time

theorem expr_iff (hp : p.Documented) {events : List Event} (h : Timely events) {m : Moment}
    (hm : m ∈ moments events) (labels : Labels) :
    expr (p.select (run p m.before).scrapes m.time) m.time labels = true ↔ m.Lagging labels := by
  have hforward : (known m.before m.time).Pairwise fun e e' => e.nowUnix ≤ e'.nowUnix :=
    h.forward.sublist ((known_prefix_reports _ _).trans
      (reports_mono (before_of_mem_moments hm))).sublist
  rw [select_scrapes hp h hm, gaugeOf]
  cases labels with
  | missing =>
    rw [Moment.Lagging, expr]
    split_ifs with hknown
    · exact iff_of_true rfl hknown
    · exact iff_of_false nofun hknown
  | series =>
    rw [Moment.Lagging, expr, ← lastSuccess_lt_iff hforward (h.times m hm)]
    split_ifs with hknown
    · simp [hknown]
    · simp [hknown]

end Alerts

/-- `LoggerSyncLagHigh` is exact over every run of emitters (with any exit status), scrapes and
evaluations: the alert of the missing series fires exactly if at every evaluation since one half a
minute ago no run was known, and that of the series exactly if at every such evaluation some was,
and none that had succeeded within the two minutes before. -/
theorem lag_alert_exact {p : Prometheus} (hp : p.Documented) {events : List Event} {time : ℚ}
    (h : Timely (events ++ [.evaluate time])) (labels : Labels) :
    ((run p (events ++ [.evaluate time])).alert labels).Firing ↔
      ∃ before m after, moments (events ++ [.evaluate time]) = before ++ m :: after ∧
        m.time + 30 ≤ time ∧ ∀ m' ∈ m :: after, m'.Lagging labels := by
  have hsorted := h.timesForward
  have hexpr := fun m (hm : m ∈ moments (events ++ [.evaluate time])) => expr_iff hp h hm labels
  rw [run_alert hp]
  rw [moments_append, Event.moment, Option.toList_some] at hsorted hexpr ⊢
  rw [firing_run_iff hsorted]
  constructor
  · rintro ⟨-, ⟨before, m, after, hsplit, rfl, hactive⟩, htime⟩
    refine ⟨before, m, after, hsplit, htime, fun m' hm' => ?_⟩
    exact (hexpr m' (hsplit ▸ List.mem_append_right before hm')).mp (hactive m' hm')
  · rintro ⟨before, m, after, hsplit, htime, hlagging⟩
    refine ⟨m.time, ⟨before, m, after, hsplit, rfl, fun m' hm' => ?_⟩, htime⟩
    exact (hexpr m' (hsplit ▸ List.mem_append_right before hm')).mpr (hlagging m' hm')

theorem Timely.of_prefix {events events' : List Event} (h : Timely events')
    (hfront : events <+: events') : Timely events := by
  have hreports := reports_mono hfront
  have hmoments : moments events <+: moments events' := marksFrom_mono Event.moment hfront
  have hlooks : looks events <+: looks events' := marksFrom_mono Event.look hfront
  exact ⟨fun e he => h.clocks e (hreports.subset he), h.forward.sublist hreports.sublist,
    h.scrapesForward.sublist hlooks.sublist, fun m hm => h.times m (hmoments.subset hm),
    h.timesForward.sublist hmoments.sublist, fun m hm => h.order m (hmoments.subset hm)⟩

/-- An evaluation takes the sample of the newest scrape, if that is not too old. -/
def newestSample : Prometheus where
  read file := file.bind fun text =>
    match samples text lastSuccessSeconds with
    | [word] => (parseFloatInt word).toOption.map Int.cast
    | _ => none
  select scrapes time := scrapes.getLast?.bind fun scrape =>
    if time < scrape.time + lookback then scrape.found else none
  evaluate := AlertRule.evaluate

theorem newestSample_documented : newestSample.Documented where
  no_file := rfl
  gauge value exitCode duration hvalue := by
    simp only [newestSample, Option.bind_some, samples_lastSuccessSeconds,
      parseFloatInt_strInt hvalue]
    rfl
  unscraped _ := rfl
  newest scrapes taken value time _ _ hfresh := by simp [newestSample, hfresh]
  outdated scrapes scrape time _ hold := by simp [newestSample, hold.le]
  vanished scrapes taken time _ _ := by simp [newestSample]
  resolved _ _ _ := rfl
  raised _ _ := rfl
  pending _ _ _ := rfl
  firing _ _ _ := rfl

def stalled : List Event :=
  [.emit ⟨"0", .nan, 1714000001⟩, .scrape 1714000010 true, .emit ⟨"TERM", .nan, 1714000061⟩,
    .scrape 1714000125 true, .evaluate 1714000130, .scrape 1714000140 true]

/-- Then the scrapes fail. -/
def blinded : List Event :=
  stalled ++ [.evaluate 1714000165, .scrape 1714000170 false, .evaluate 1714000175]

theorem report_done :
    Event.report (.emit ⟨"0", .nan, 1714000001⟩) = some ⟨"0", .nan, 1714000001⟩ := by
  rw [Event.report, if_pos (by decide)]

theorem report_killed : Event.report (.emit ⟨"TERM", .nan, 1714000061⟩) = none := by
  rw [Event.report, if_neg (by decide)]

theorem blinded_timely : Timely (blinded ++ [.evaluate 1714000210]) := by
  have hreports : reports (blinded ++ [.evaluate 1714000210]) = [⟨"0", .nan, 1714000001⟩] := by
    simp only [blinded, stalled, List.cons_append, List.nil_append, reports_cons, report_done,
      report_killed]
    rfl
  constructor
  · rw [hreports]
    exact List.forall_mem_singleton.mpr ⟨by decide, by decide⟩
  · rw [hreports]
    exact List.pairwise_singleton _ _
  · simp [blinded, stalled, looks, marksFrom, Event.look]
    norm_num
  · simp [blinded, stalled, moments, marksFrom, Event.moment]
    norm_num
  · simp [blinded, stalled, moments, marksFrom, Event.moment]
    norm_num
  · simp [blinded, stalled, moments, looks, marksFrom, Event.moment, Event.look, lookback]
    norm_num

/-- The alert of the series fires half a minute after the last success is two minutes old, and
that of the missing series half a minute after the first evaluation without a scrape. -/
theorem lag_alert_exact_blinded :
    ((run newestSample (stalled ++ [.evaluate 1714000165])).alert .series).Firing ∧
    ((run newestSample (blinded ++ [.evaluate 1714000210])).alert .missing).Firing := by
  constructor
  · refine (lag_alert_exact newestSample_documented (blinded_timely.of_prefix ?_) .series).mpr
      ⟨[], ⟨stalled.take 4, 1714000130⟩, [⟨stalled, 1714000165⟩], rfl, by norm_num, ?_⟩
    · exact ⟨[.scrape 1714000170 false, .evaluate 1714000175, .evaluate 1714000210], rfl⟩
    · simp [stalled, Moment.Lagging, known, looks, marksFrom, Event.look, reports_cons, report_done,
        report_killed, reports_nil, lookback]
      norm_num
  · refine (lag_alert_exact newestSample_documented blinded_timely .missing).mpr
      ⟨[⟨stalled.take 4, 1714000130⟩, ⟨stalled, 1714000165⟩],
        ⟨blinded.take 8, 1714000175⟩, [⟨blinded, 1714000210⟩], rfl, by norm_num, ?_⟩
    simp [blinded, stalled, Moment.Lagging, known, looks, marksFrom, Event.look]

end LagAlert

end Athena
