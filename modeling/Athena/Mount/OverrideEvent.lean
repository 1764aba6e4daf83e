import Athena.Core.Datetime
import Athena.Library.Framing
import Athena.Library.PathResolution
import Athena.Mount.ReadonlyMount

/-!
# Accepted policy paths

The controller and the override event each check that a path lies under the
policy root, one on the components and one on the text. Neither check resolves
`..`, so an accepted path may name a file elsewhere.
-/

namespace Athena

namespace PurePosixPath

/-- `posixpath.splitroot`: exactly two leading slashes are a root of their own. -/
def splitroot : List Char → String × List Char
  | '/' :: '/' :: '/' :: rest => ("/", '/' :: '/' :: rest)
  | '/' :: '/' :: rest => ("//", rest)
  | '/' :: rest => ("/", rest)
  | rest => ("", rest)

/-- The components of a path below its root: empty ones and `.` are dropped. -/
def components (rel : List Char) : List String :=
  ((rel.splitOn '/').filter fun x => x ≠ [] ∧ x ≠ ['.']).map String.ofList

def parse (text : String) : PurePosixPath :=
  ⟨(splitroot text.toList).1, components (splitroot text.toList).2⟩

/-- A component that parsing can produce. -/
def IsComponent (part : String) : Prop := part ≠ "" ∧ part ≠ "." ∧ '/' ∉ part.toList

/-- A path that parsing can produce. -/
structure WellFormed (p : PurePosixPath) : Prop where
  root : p.root = "" ∨ p.root = "/" ∨ p.root = "//"
  parts : ∀ part ∈ p.parts, IsComponent part

/-- The path with its `..` components resolved, where no component is a symbolic
link. A relative path starts at the working directory. -/
def resolve (cwd : List String) (p : PurePosixPath) : PurePosixPath :=
  if p.root = "" then ⟨"/", PathResolution.resolve ".." cwd p.parts⟩
  else ⟨p.root, PathResolution.resolve ".." [] p.parts⟩

theorem splitroot_root (s : List Char) :
    (splitroot s).1 = "" ∨ (splitroot s).1 = "/" ∨ (splitroot s).1 = "//" := by
  unfold splitroot
  split <;> simp

theorem splitroot_append {root : String} (hroot : root = "" ∨ root = "/" ∨ root = "//")
    {s : List Char} (h : s.head? ≠ some '/') : splitroot (root.toList ++ s) = (root, s) := by
  cases s with
  | nil => rcases hroot with rfl | rfl | rfl <;> rfl
  | cons c s =>
    have hc : c ≠ '/' := by simpa using h
    rcases hroot with rfl | rfl | rfl <;> simp [splitroot, hc]

theorem isComponent_of_mem_components {rel : List Char} {part : String}
    (h : part ∈ components rel) : IsComponent part := by
  obtain ⟨x, hx, rfl⟩ := List.mem_map.mp h
  obtain ⟨hmem, hkeep⟩ := List.mem_filter.mp hx
  have hkeep : x ≠ [] ∧ x ≠ ['.'] := of_decide_eq_true hkeep
  have hfree : '/' ∉ x := Framing.separatorFree_splitOn '/' rel x hmem
  refine ⟨?_, ?_, ?_⟩
  · intro hempty
    exact hkeep.1 (by simpa using congrArg String.toList hempty)
  · intro hdot
    exact hkeep.2 (by simpa using congrArg String.toList hdot)
  · simpa using hfree

theorem wellFormed_parse (text : String) : (parse text).WellFormed where
  root := splitroot_root text.toList
  parts := fun _ => isComponent_of_mem_components

section Rendering

variable {parts : List String}

theorem toList_intercalate_slash (parts : List String) :
    (String.intercalate "/" parts).toList = ['/'].intercalate (parts.map String.toList) :=
  String.toList_intercalate

theorem splitOn_rendered (h : ∀ part ∈ parts, IsComponent part) (hne : parts ≠ []) :
    (String.intercalate "/" parts).toList.splitOn '/' = parts.map String.toList := by
  rw [toList_intercalate_slash]
  apply List.splitOn_intercalate
  · intro word hword
    obtain ⟨part, hpart, rfl⟩ := List.mem_map.mp hword
    exact (h part hpart).2.2
  · simpa using hne

theorem components_rendered (h : ∀ part ∈ parts, IsComponent part) :
    components (String.intercalate "/" parts).toList = parts := by
  by_cases hne : parts = []
  · subst hne
    rfl
  · have hkeep : ∀ x ∈ parts.map String.toList, decide (x ≠ [] ∧ x ≠ ['.']) = true := by
      intro x hx
      obtain ⟨part, hpart, rfl⟩ := List.mem_map.mp hx
      obtain ⟨hempty, hdot, -⟩ := h part hpart
      apply decide_eq_true
      constructor
      · intro heq
        exact hempty (String.toList_injective heq)
      · intro heq
        exact hdot (String.toList_injective heq)
    rw [components, splitOn_rendered h hne, List.filter_eq_self.mpr hkeep, List.map_map]
    simp

theorem head_rendered (h : ∀ part ∈ parts, IsComponent part) :
    (String.intercalate "/" parts).toList.head? ≠ some '/' := by
  rw [toList_intercalate_slash]
  cases parts with
  | nil => simp
  | cons part parts =>
    obtain ⟨hempty, -, hslash⟩ := h part List.mem_cons_self
    have hword : part.toList ≠ [] := fun heq => hempty (String.toList_injective heq)
    have hhead : (['/'].intercalate ((part :: parts).map String.toList)).head? =
        part.toList.head? := by
      cases parts with
      | nil => simp
      | cons next parts =>
        rw [List.map_cons, List.map_cons, List.intercalate_cons_cons, List.append_assoc,
          List.head?_append_of_ne_nil _ hword]
    rw [hhead]
    intro heq
    exact hslash (List.mem_of_head? heq)

end Rendering

theorem parse_str {p : PurePosixPath} (h : p.WellFormed) : parse p.str = p := by
  by_cases hempty : p.root = "" ∧ p.parts = []
  · have hp : p = ⟨"", []⟩ := by
      cases p
      simp_all
    subst hp
    rfl
  · have hstr : p.str.toList = p.root.toList ++ (String.intercalate "/" p.parts).toList := by
      rw [str, if_neg hempty, String.toList_append]
    rw [parse, hstr, splitroot_append h.root (head_rendered h.parts), components_rendered h.parts]

theorem components_append_slash (a b : List Char) :
    components (a ++ '/' :: b) = components a ++ components b := by
  rw [components, List.splitOn_append_cons_self, List.filter_append, List.map_append]
  rfl

def underRoot (tail : List String) : PurePosixPath := ⟨"/", protectedRoot.parts ++ tail⟩

theorem isRelativeTo_protectedRoot_iff {p : PurePosixPath} :
    p.IsRelativeTo protectedRoot ↔ ∃ tail, p = underRoot tail := by
  constructor
  · intro h
    obtain ⟨hroot, tail, htail⟩ := h
    exact ⟨tail, by cases p; simp_all [underRoot, protectedRoot]⟩
  · intro h
    obtain ⟨tail, rfl⟩ := h
    exact ⟨rfl, List.prefix_append _ _⟩

end PurePosixPath

def protectedRootStr : String := "/var/lib/athena/policy"

/-- `str(target_path).startswith(_PROTECTED_ROOT_STR + "/")`. -/
def HasRootPrefix (p : PurePosixPath) : Prop :=
  (protectedRootStr ++ "/").toList <+: p.str.toList

instance (p : PurePosixPath) : Decidable (HasRootPrefix p) := inferInstanceAs (Decidable (_ <+: _))

namespace PurePosixPath

theorem parse_root_slash (rest : List Char) :
    parse (String.ofList ((protectedRootStr ++ "/").toList ++ rest)) =
      underRoot (components rest) := by
  have hroot : (protectedRootStr ++ "/").toList =
      "/".toList ++ ("var/lib/athena/policy".toList ++ ['/']) := by decide
  have hhead : ("var/lib/athena/policy".toList ++ '/' :: rest).head? ≠ some '/' := by
    rw [List.head?_append_of_ne_nil _ (by decide)]
    decide
  have hsplit := splitroot_append (.inr (.inl rfl)) hhead
  have hparts : components "var/lib/athena/policy".toList = protectedRoot.parts := by decide
  rw [parse, String.toList_ofList, hroot, List.append_assoc, List.append_assoc,
    List.singleton_append, hsplit, components_append_slash, hparts]
  rfl

theorem str_underRoot {tail : List String} (h : tail ≠ []) :
    (underRoot tail).str = protectedRootStr ++ "/" ++ String.intercalate "/" tail := by
  have hparts : protectedRoot.parts ≠ [] := by decide
  have hroot : "/" ++ String.intercalate "/" protectedRoot.parts = protectedRootStr := by decide
  rw [str, if_neg (by simp [underRoot]), ← hroot, String.append_assoc, String.append_assoc]
  simp only [underRoot]
  rw [String.intercalate_append_of_ne_nil hparts h, String.append_assoc]

theorem hasRootPrefix_iff {p : PurePosixPath} (hp : p.WellFormed) :
    HasRootPrefix p ↔ ∃ tail, tail ≠ [] ∧ p = underRoot tail := by
  constructor
  · intro h
    obtain ⟨rest, hrest⟩ := id h
    have hparse : p = underRoot (components rest) := by
      rw [← parse_root_slash, hrest, String.ofList_toList, parse_str hp]
    refine ⟨components rest, ?_, hparse⟩
    intro hempty
    rw [hparse, hempty] at h
    exact absurd h (by decide)
  · intro h
    obtain ⟨tail, hne, rfl⟩ := h
    have hstr := congrArg String.toList (str_underRoot hne)
    rw [String.toList_append] at hstr
    exact ⟨_, hstr.symm⟩

end PurePosixPath

inductive InotifyEventMask
  | inModify
  | inAttrib
  | inDelete
  | inMovedFrom
  deriving DecidableEq, Repr

/-- An event carries what `__post_init__` has checked. -/
structure OverrideAttemptEvent where
  attemptedAtUtc : Datetime
  targetPath : PurePosixPath
  inotifyEventMask : InotifyEventMask
  attempterUid : Int
  attempterPid : Option Int
  mountStateAtAttempt : MountState
  aware : attemptedAtUtc.tzinfo.isSome
  rootPrefix : HasRootPrefix targetPath

namespace OverrideAttemptEvent

def init (attemptedAtUtc : Datetime) (targetPath : PurePosixPath)
    (inotifyEventMask : InotifyEventMask) (attempterUid : Int) (attempterPid : Option Int)
    (mountStateAtAttempt : MountState) : Except PyErr OverrideAttemptEvent :=
  if haware : attemptedAtUtc.tzinfo.isSome then
    if hroot : HasRootPrefix targetPath then
      .ok ⟨attemptedAtUtc, targetPath, inotifyEventMask, attempterUid, attempterPid,
        mountStateAtAttempt, haware, hroot⟩
    else
      .error (.valueError ("OverrideAttemptEvent.target_path=" ++ targetPath.str ++
        " is outside " ++ protectedRootStr ++ "/. The inotify watcher (Story 3.5) should " ++
        "only watch the protected root."))
  else
    .error (.valueError ("OverrideAttemptEvent.attempted_at_utc must be timezone-aware (UTC). " ++
      "Naive datetimes break canonical JSON serialization in Story 3.1's " ++
      "anti_ego_events SHA-256 chain."))

theorem init_eq_ok {attemptedAtUtc : Datetime} {targetPath : PurePosixPath}
    {mask : InotifyEventMask} {uid : Int} {pid : Option Int} {state : MountState}
    {e : OverrideAttemptEvent}
    (h : init attemptedAtUtc targetPath mask uid pid state = .ok e) :
    e.targetPath = targetPath := by
  unfold init at h
  split_ifs at h
  cases h
  rfl

theorem init_of_hasRootPrefix {attemptedAtUtc : Datetime} {targetPath : PurePosixPath}
    {mask : InotifyEventMask} {uid : Int} {pid : Option Int} {state : MountState}
    (haware : attemptedAtUtc.tzinfo.isSome) (hroot : HasRootPrefix targetPath) :
    init attemptedAtUtc targetPath mask uid pid state =
      .ok ⟨attemptedAtUtc, targetPath, mask, uid, pid, state, haware, hroot⟩ := by
  rw [init, dif_pos haware, dif_pos hroot]

/-- With the other fields valid, the check on the text decides. -/
theorem accepts_iff {attemptedAtUtc : Datetime} (targetPath : PurePosixPath)
    (mask : InotifyEventMask) (uid : Int) (pid : Option Int) (state : MountState)
    (haware : attemptedAtUtc.tzinfo.isSome) :
    (∃ e, init attemptedAtUtc targetPath mask uid pid state = .ok e) ↔
      HasRootPrefix targetPath := by
  constructor
  · intro h
    obtain ⟨e, he⟩ := h
    exact init_eq_ok he ▸ e.rootPrefix
  · intro h
    exact ⟨_, init_of_hasRootPrefix haware h⟩

end OverrideAttemptEvent

namespace ReadonlyMountController

theorem init_of_isRelativeTo (x : ChattrExecutor) {paths : List PurePosixPath} (hne : paths ≠ [])
    (h : ∀ p ∈ paths, p.IsRelativeTo protectedRoot) :
    init x (some paths) = .ok ⟨x, paths, hne, h⟩ := by
  have hfind : paths.find? (fun p => ¬ p.IsRelativeTo protectedRoot) = none := by simpa using h
  unfold init
  simp only [Option.getD_some]
  rw [dif_neg hne]
  split
  · next q hq => exact absurd (hq.symm.trans hfind) (by simp)
  · rfl

theorem init_singleton (x : ChattrExecutor) {p : PurePosixPath}
    (h : p.IsRelativeTo protectedRoot) :
    init x (some [p]) = .ok ⟨x, [p], List.cons_ne_nil p [], by simpa using h⟩ :=
  init_of_isRelativeTo x (List.cons_ne_nil p []) (by simpa using h)

/-- Among paths that would be accepted without it, a path is accepted by its own check. -/
theorem accepts_iff (x : ChattrExecutor) {paths : List PurePosixPath} {p : PurePosixPath}
    (hmem : p ∈ paths) (hothers : ∀ q ∈ paths, q ≠ p → q.IsRelativeTo protectedRoot) :
    (∃ c, init x (some paths) = .ok c ∧ p ∈ c.protectedPaths) ↔ p.IsRelativeTo protectedRoot := by
  constructor
  · intro h
    obtain ⟨c, -, hp⟩ := h
    exact c.underRoot p hp
  · intro h
    have hall : ∀ q ∈ paths, q.IsRelativeTo protectedRoot := by
      intro q hq
      by_cases heq : q = p
      · exact heq ▸ h
      · exact hothers q hq heq
    exact ⟨_, init_of_isRelativeTo x (List.ne_nil_of_mem hmem) hall, hmem⟩

end ReadonlyMountController

namespace PurePosixPath

/-- The path is not below the policy root, or the walk from the root that its
remaining components make comes back down through the names it has climbed above. -/
def ReturnsUnderRoot (p : PurePosixPath) : Prop :=
  ∀ tail, p = underRoot tail →
    protectedRoot.parts.drop (4 - (PathResolution.excursion ".." tail).climb) <+:
      (PathResolution.excursion ".." tail).names

theorem resolve_underRoot (cwd tail : List String) :
    (underRoot tail).resolve cwd =
      ⟨"/", PathResolution.resolve ".." protectedRoot.parts tail⟩ := by
  have hroot : PathResolution.resolve ".." [] protectedRoot.parts = protectedRoot.parts :=
    PathResolution.resolve_nil_of_not_mem ".." (by decide)
  rw [resolve, if_neg (by simp [underRoot])]
  simp only [underRoot]
  rw [PathResolution.resolve_append, hroot]

theorem resolve_underRoot_iff (cwd tail : List String) :
    ((underRoot tail).resolve cwd).IsRelativeTo protectedRoot ↔
      protectedRoot.parts.drop (4 - (PathResolution.excursion ".." tail).climb) <+:
        (PathResolution.excursion ".." tail).names := by
  rw [resolve_underRoot]
  exact (and_iff_right rfl).trans (PathResolution.prefix_resolve_iff ".." _ tail)

/-- Below the root, the condition asks that the path resolves to a place below it. -/
theorem ReturnsUnderRoot.resolve {p : PurePosixPath} (h : p.ReturnsUnderRoot)
    (hp : p.IsRelativeTo protectedRoot) (cwd : List String) :
    (p.resolve cwd).IsRelativeTo protectedRoot := by
  obtain ⟨tail, rfl⟩ := isRelativeTo_protectedRoot_iff.mp hp
  exact (resolve_underRoot_iff cwd tail).mpr (h tail rfl)

end PurePosixPath

def faultless : ChattrExecutor := ⟨fun _ _ => none, fun _ => none, fun _ => none⟩

def attemptHour : UtcHour := ⟨⟨2031, 11, 3, by decide, by decide⟩, by decide, ⟨17, by decide⟩⟩

open PurePosixPath in
/-- Both checks let a path through whose `..` components leave the policy root;
apart from these, accepted paths resolve to places below it. -/
theorem accepted_paths_stay_iff (text : String) (cwd : List String) :
    ((∀ x paths c, ReadonlyMountController.init x paths = .ok c →
        parse text ∈ c.protectedPaths →
          ((parse text).resolve cwd).IsRelativeTo protectedRoot) ↔
      (parse text).ReturnsUnderRoot) ∧
    ((∀ attemptedAt mask uid pid state e,
        OverrideAttemptEvent.init attemptedAt (parse text) mask uid pid state = .ok e →
          ((parse text).resolve cwd).IsRelativeTo protectedRoot) ↔
      (parse text).ReturnsUnderRoot) := by
  constructor
  · constructor
    · intro h tail htail
      have hunder := isRelativeTo_protectedRoot_iff.mpr ⟨tail, htail⟩
      have hinside := h faultless _ _ (ReadonlyMountController.init_singleton faultless hunder)
        List.mem_cons_self
      rw [htail] at hinside
      exact (resolve_underRoot_iff cwd tail).mp hinside
    · intro h x paths c hc hmem
      exact h.resolve (c.underRoot _ hmem) cwd
  · constructor
    · intro h tail htail
      by_cases hempty : tail = []
      · subst hempty
        exact List.nil_prefix
      · have hstart := (hasRootPrefix_iff (wellFormed_parse text)).mpr ⟨tail, hempty, htail⟩
        have hinside := h attemptHour.toDatetime .inModify 0 none .locked _
          (OverrideAttemptEvent.init_of_hasRootPrefix rfl hstart)
        rw [htail] at hinside
        exact (resolve_underRoot_iff cwd tail).mp hinside
    · intro h attemptedAt mask uid pid state e he
      have hstart : HasRootPrefix (parse text) :=
        OverrideAttemptEvent.init_eq_ok he ▸ e.rootPrefix
      obtain ⟨tail, -, htail⟩ := (hasRootPrefix_iff (wellFormed_parse text)).mp hstart
      exact h.resolve (isRelativeTo_protectedRoot_iff.mpr ⟨tail, htail⟩) cwd

open PurePosixPath in
/-- The path climbs out of the policy root and names `/etc/passwd`; the
controller locks it all the same. -/
theorem climbing_path_accepted :
    let p := parse "/var/lib/athena/policy/../../../../etc/passwd"
    (∃ c, ReadonlyMountController.init faultless (some [p]) = .ok c ∧
      (c.lock 0 ⟨fun _ => false, 0⟩).2.immutable p = true) ∧
    (∃ e, OverrideAttemptEvent.init attemptHour.toDatetime p .inModify 0 none .locked = .ok e) ∧
    p.resolve [] = parse "/etc/passwd" ∧
    ¬ (p.resolve []).IsRelativeTo protectedRoot := by
  intro p
  have hp : p = underRoot ["..", "..", "..", "..", "etc", "passwd"] := by decide
  have hunder : p.IsRelativeTo protectedRoot := isRelativeTo_protectedRoot_iff.mpr ⟨_, hp⟩
  have hstart : HasRootPrefix p :=
    (hasRootPrefix_iff (wellFormed_parse _)).mpr ⟨_, by decide, hp⟩
  refine ⟨?_, ⟨_, OverrideAttemptEvent.init_of_hasRootPrefix rfl hstart⟩, ?_, ?_⟩
  · exact ⟨_, ReadonlyMountController.init_singleton faultless hunder, rfl⟩
  · decide
  · decide

namespace PurePosixPath

theorem underRoot_eq_protectedRoot_iff {tail : List String} :
    underRoot tail = protectedRoot ↔ tail = [] := by
  constructor
  · intro h
    have hparts : protectedRoot.parts ++ tail = protectedRoot.parts :=
      congrArg PurePosixPath.parts h
    exact List.append_right_eq_self.mp hparts
  · intro h
    subst h
    rfl

theorem checks_agree_iff {p : PurePosixPath} (hp : p.WellFormed) :
    (p.IsRelativeTo protectedRoot ↔ HasRootPrefix p) ↔ p ≠ protectedRoot := by
  rw [hasRootPrefix_iff hp, isRelativeTo_protectedRoot_iff]
  constructor
  · intro h heq
    obtain ⟨tail, hne, htail⟩ := h.mp ⟨[], heq⟩
    exact hne (underRoot_eq_protectedRoot_iff.mp (htail.symm.trans heq))
  · intro hne
    constructor
    · intro h
      obtain ⟨tail, rfl⟩ := h
      exact ⟨tail, fun hempty => hne (underRoot_eq_protectedRoot_iff.mpr hempty), rfl⟩
    · intro h
      obtain ⟨tail, -, htail⟩ := h
      exact ⟨tail, htail⟩

end PurePosixPath

open PurePosixPath in
/-- The controller and the event accept the same paths, the policy root apart. -/
theorem protected_root_checks_agree_iff (text : String) (x : ChattrExecutor)
    (paths : List PurePosixPath) (attemptedAt : Datetime) (mask : InotifyEventMask)
    (uid : Int) (pid : Option Int) (state : MountState)
    (hmem : parse text ∈ paths)
    (hothers : ∀ q ∈ paths, q ≠ parse text → q.IsRelativeTo protectedRoot)
    (haware : attemptedAt.tzinfo.isSome) :
    ((∃ c, ReadonlyMountController.init x (some paths) = .ok c ∧
        parse text ∈ c.protectedPaths) ↔
      (∃ e, OverrideAttemptEvent.init attemptedAt (parse text) mask uid pid state = .ok e)) ↔
    parse text ≠ protectedRoot := by
  rw [ReadonlyMountController.accepts_iff x hmem hothers,
    OverrideAttemptEvent.accepts_iff (parse text) mask uid pid state haware]
  exact checks_agree_iff (wellFormed_parse text)

open PurePosixPath in
/-- A sibling that shares the root's text as a prefix, beside the default paths. -/
theorem protected_root_checks_agree_at_sibling :
    ((∃ c, ReadonlyMountController.init faultless
          (some (parse "/var/lib/athena/policy-old/x" ::
            ReadonlyMountController.defaultProtectedPaths)) = .ok c ∧
        parse "/var/lib/athena/policy-old/x" ∈ c.protectedPaths) ↔
      (∃ e, OverrideAttemptEvent.init attemptHour.toDatetime
        (parse "/var/lib/athena/policy-old/x") .inModify 1000 none .locked = .ok e)) ↔
    parse "/var/lib/athena/policy-old/x" ≠ protectedRoot := by
  have hothers : ∀ q ∈ parse "/var/lib/athena/policy-old/x" ::
      ReadonlyMountController.defaultProtectedPaths,
      q ≠ parse "/var/lib/athena/policy-old/x" → q.IsRelativeTo protectedRoot := by
    intro q hq hne
    rcases List.mem_cons.mp hq with rfl | hq
    · exact absurd rfl hne
    · revert q
      decide
  exact protected_root_checks_agree_iff "/var/lib/athena/policy-old/x" faultless _ _ _ _ _ _
    List.mem_cons_self hothers rfl

open PurePosixPath in
/-- The policy root itself can be locked, and no attempt on it recorded. -/
theorem protected_root_accepted_once :
    (∃ c, ReadonlyMountController.init faultless (some [parse "/var/lib/athena/policy"]) = .ok c ∧
      parse "/var/lib/athena/policy" ∈ c.protectedPaths) ∧
    ¬ ∃ e, OverrideAttemptEvent.init attemptHour.toDatetime (parse "/var/lib/athena/policy")
      .inModify 1000 none .locked = .ok e := by
  have hunder : (parse "/var/lib/athena/policy").IsRelativeTo protectedRoot := by decide
  have htext : ¬ HasRootPrefix (parse "/var/lib/athena/policy") := by decide
  constructor
  · exact ⟨_, ReadonlyMountController.init_singleton faultless hunder, List.mem_cons_self⟩
  · intro h
    exact htext ((OverrideAttemptEvent.accepts_iff _ _ _ _ _ rfl).mp h)

end Athena
