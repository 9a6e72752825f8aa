import DocIndex.Program
import DocIndex.Proofs.Index.Restored
import DocIndex.Proofs.Project.Invalidation

/-!
# What commands tell of changes

The commands `index`, `query` and `members` take up the cached index of a project, bring it up to
date and write it back. `Ran` says what such commands lead to, one after another, while files are
changed in between. Each of them takes the documents that its update names, but `index` alone tells
them: what it lists are the documents that rest on a file changed since the last command, whichever
that was.

* `run_eq` — the three commands differ in what they do with the index that is up to date.
* `Resumes` — what the index is that a command takes up; `resumes_of_ran` holds for every history.
* `index_lists_iff` — **what `index` lists, told by the history of commands.**
* `members_takes_change` — a change found by `members`, which no `index` behind it lists.
-/

namespace DocIndex

open Std (TreeMap TreeSet)

/-- What a command asks of a project. -/
inductive Inquiry
  | index
  | query (request : Request) (document : Option String)
  | members (scope : DocScope)

namespace Inquiry

/-- What is done in a session that is up to date: the session behind it, the report, and the exit
code. -/
def work (i : Inquiry) (o : Project.Opened) : Session × Report × Nat :=
  match i with
  | index => (o.session, .index o.session.index o.invalidated, 0)
  | query request document => Command.lookUp request document o
  | members scope => (o.session, .members scope (o.session.index.members? scope), 0)

end Inquiry

/-- What a command asks of a project, if it is one of the three. -/
def Command.inquiry? : Command → Option Inquiry
  | .index _ _ => some .index
  | .query directive words scope document _ _ =>
    some (.query
      { directive
        argument := argumentOfWords words
        namespacePath := scope.namespacePath
        moduleName := scope.moduleName } document)
  | .members scope _ _ => some (.members scope)
  | _ => none

namespace Command

variable {c : Command} {i : Inquiry} {d : Disk} {now : Timestamp} {root : Path}
  {given : Option Path}

/-- **The three commands do their work in a session that is up to date**, and close it. -/
theorem run_eq (now : Timestamp) (hi : c.inquiry? = some i)
    (hp : c.project? d = some (root, given)) :
    ∃ format : Option ReportFormat, c.run d now =
      match Project.start d root given with
      | .error f => .failed d "" f
      | .ok o =>
        Project.close { o with session := (i.work o).1 } d now
          ((i.work o).2.1.render root (format.getD (i.work o).1.config.format)) (i.work o).2.2 := by
  cases c with
  | scan | watch | init => cases hi
  | index r output =>
    cases hi
    cases hp
    refine ⟨output.format, ?_⟩
    simp only [run, Project.report]
    cases Project.start d (d.resolve r) output.config <;> rfl
  | query directive words scope document r output =>
    cases hi
    cases hp
    refine ⟨output.format, ?_⟩
    simp only [run, Project.report]
    cases Project.start d (d.resolve r) output.config <;> rfl
  | members scope r output =>
    cases hi
    cases hp
    refine ⟨output.format, ?_⟩
    simp only [run, Project.report]
    cases Project.start d (d.resolve r) output.config <;> rfl

/-- A command whose session can be closed writes the cache. -/
theorem run_closed (hi : c.inquiry? = some i) (hp : c.project? d = some (root, given))
    {o : Project.Opened} {e : Disk} (ho : Project.start d root given = .ok o)
    (he : (i.work o).1.close d now = .ok e) :
    (c.run d now).disk = e ∧
      (c.run d now).written = (i.work o).1.config.cacheFile? (i.work o).1.root := by
  obtain ⟨format, hrun⟩ := run_eq now hi hp
  rw [hrun, ho]
  dsimp only
  rw [Project.close]
  dsimp only
  rw [he]
  exact ⟨rfl, rfl⟩

/-- A command that writes a cache was done with its work. -/
theorem run_written (hi : c.inquiry? = some i) (hp : c.project? d = some (root, given))
    {path : Path} (hw : (c.run d now).written = some path) :
    ∃ o e, Project.start d root given = .ok o ∧ (i.work o).1.close d now = .ok e ∧
      (c.run d now).disk = e ∧ (c.run d now).exit = (i.work o).2.2 ∧
      ∃ format, (c.run d now).output = (i.work o).2.1.render root format := by
  obtain ⟨format, hrun⟩ := run_eq now hi hp
  rw [hrun] at hw ⊢
  cases hs : Project.start d root given with
  | error f =>
    rw [hs] at hw
    cases hw
  | ok o =>
    rw [hs] at hw
    dsimp only at hw ⊢
    unfold Project.close at hw ⊢
    dsimp only at hw ⊢
    cases he : (i.work o).1.close d now with
    | error e =>
      rw [he] at hw
      cases hw
    | ok e => exact ⟨o, e, rfl, he, rfl, rfl, _, rfl⟩

end Command

/-! ## One command -/

/-- The work of a command may record what a document rests on, and does nothing else. -/
theorem Inquiry.work_frame (i : Inquiry) (o : Project.Opened) :
    let s := (i.work o).1
    s.root = o.session.root ∧ s.config = o.session.config ∧
      s.index.files = o.session.index.files ∧ s.index.pending = o.session.index.pending ∧
      s.index.buckets = o.session.index.buckets ∧ s.index.scopes = o.session.index.scopes := by
  cases i with
  | index => exact ⟨rfl, rfl, rfl, rfl, rfl, rfl⟩
  | members scope => exact ⟨rfl, rfl, rfl, rfl, rfl, rfl⟩
  | query request document =>
    cases document with
    | none => exact ⟨rfl, rfl, rfl, rfl, rfl, rfl⟩
    | some document =>
      obtain ⟨hf, hb, hs, hp⟩ := o.session.index.lookup_frame o.session.config.query document
        request.context request.argument
      exact ⟨rfl, rfl, hf, hp, hb, hs⟩

/-- A project with a cache: its root, the configuration that is named for it and what that is, and
the file of the cache. -/
structure CachedProject where
  root : Path
  given : Option Path
  config : Config
  cache : Path
  cache_eq : config.cacheFile? root = some cache

/-- A command that was carried out on a project, and the session that it brought up to date. -/
structure Round where
  disk : Disk
  inquiry : Inquiry
  opened : Project.Opened

namespace Round

/-- The index that the command wrote into the cache. -/
def saved (r : Round) : Index :=
  (r.inquiry.work r.opened).1.index

/-- The command looked up a comment of the file at a path, on behalf of the document. -/
def Records (r : Round) (document : String) (path : Path) : Prop :=
  ∃ request, r.inquiry = .query request (some document) ∧
    ∃ c, r.opened.session.index.find? request.context request.argument = some c ∧
      compare c.file path = .eq

/-- What documents rest on behind the command: what they did, and what it recorded. -/
theorem rests_saved (r : Round) {document : String} {path : Path} :
    r.saved.Rests document path ↔
      r.opened.session.index.Rests document path ∨ r.Records document path := by
  obtain ⟨d, i, o⟩ := r
  cases i with
  | index => simp [saved, Inquiry.work, Records]
  | members scope => simp [saved, Inquiry.work, Records]
  | query request document' =>
    cases document' with
    | none => simp [saved, Inquiry.work, Command.lookUp, Records]
    | some document' =>
      have hsaved : saved ⟨d, .query request (some document'), o⟩ =
          (o.session.index.lookup o.session.config.query document' request.context
            request.argument).1 := rfl
      rw [hsaved, Index.rests_lookup]
      simp only [Records, Inquiry.query.injEq, Option.some.injEq, and_assoc, exists_eq_left']

end Round

namespace CachedProject

variable (p : CachedProject)

/-- The files that are watched. -/
def watched (d : Disk) : List Path :=
  p.config.watched d p.root

/-- The index that is taken up. -/
def cached (d : Disk) : Index :=
  (p.config.cached? d p.root).getD .empty

/-- The command asks something of the project, whose configuration is in place. -/
structure Asks (d : Disk) (c : Command) (i : Inquiry) : Prop where
  inquiry : c.inquiry? = some i
  project : c.project? d = some (p.root, p.given)
  config : Config.load d p.given p.root = .ok p.config

/-- What commands on a project lead to that are carried out one after another while files are
changed, the last one in front. There is no cache at first, and no one else writes it. Times are
normal, and line numbers fit into 32 bits. -/
inductive Ran : List Round → Disk → Prop
  | start {d : Disk} (h : ∃ fault, d.read p.cache = .error fault) : Ran [] d
  | edit {rounds : List Round} {d d' : Disk} (h : Ran rounds d)
      (hcache : d'.read p.cache = d.read p.cache) : Ran rounds d'
  | command {rounds : List Round} {d : Disk} {c : Command} {i : Inquiry} {now : Timestamp}
      {o : Project.Opened} (h : Ran rounds d) (hc : p.Asks d c i)
      (ho : Project.start d p.root p.given = .ok o)
      (hw : (c.run d now).written = some p.cache)
      (ht : ∀ q ∈ p.watched d, ∀ t, d.modified? q = some t → t.Normal)
      (hf : o.session.index.Fits) : Ran (⟨d, i, o⟩ :: rounds) (c.run d now).disk

/-- The index that is taken up behind some commands: it is what the last one wrote, it holds nothing
back, and documents rest on what the commands recorded. -/
structure Resumes (rounds : List Round) (x : Index) : Prop where
  genuine : x.Genuine
  pending : ∀ document, document ∉ x.pending
  files : x.files.toList = (rounds.head?.map fun r => r.saved.files.toList).getD []
  rests : ∀ document path, x.Rests document path ↔ ∃ r ∈ rounds, r.Records document path

variable {p} {rounds : List Round} {d : Disk} {c : Command} {i : Inquiry} {now : Timestamp}
  {o : Project.Opened}

theorem resumes_empty : Resumes [] Index.empty where
  genuine := Index.genuine_empty
  pending document := TreeSet.not_mem_emptyc
  files := rfl
  rests document path := by simp [Index.Rests, Index.empty]

/-- The session that a command works in is that of the cached index, brought up to date. -/
theorem start_ok (hc : p.Asks d c i) (ho : Project.start d p.root p.given = .ok o) :
    ((p.cached d).update p.config p.root d (p.watched d)).result = .ok o.invalidated ∧
      o.session =
        { root := p.root
          config := p.config
          index := ((p.cached d).update p.config p.root d (p.watched d)).index } := by
  unfold Project.start at ho
  rw [hc.config] at ho
  obtain ⟨c', hc', ho⟩ := Fallible.bind_eq_ok.1 ho
  cases hc'
  obtain ⟨invalidated, hi, ho⟩ := Fallible.bind_eq_ok.1 ho
  cases ho
  exact ⟨Fallible.mapError_eq_ok.1 hi, rfl⟩

/-- A command that is carried out saves its index. -/
theorem save_of_written (hc : p.Asks d c i) (ho : Project.start d p.root p.given = .ok o)
    (hw : (c.run d now).written = some p.cache) :
    (Round.saved ⟨d, i, o⟩).save d p.cache now = .ok (c.run d now).disk := by
  obtain ⟨o', e, ho', hclose, rfl, -⟩ := Command.run_written hc.inquiry hc.project hw
  cases ho.symm.trans ho'
  obtain ⟨-, hsession⟩ := start_ok hc ho
  obtain ⟨hroot, hconfig, -⟩ := i.work_frame o
  rw [Session.close, hroot, hconfig, hsession] at hclose
  dsimp only at hclose
  rw [p.cache_eq] at hclose
  exact hclose

/-- What it writes are some bytes in the file of the cache. -/
theorem write_of_written (hc : p.Asks d c i) (ho : Project.start d p.root p.given = .ok o)
    (hw : (c.run d now).written = some p.cache) :
    ∃ bytes, d.write p.cache bytes now = .ok (c.run d now).disk := by
  obtain ⟨text, -, hwrite⟩ := Fallible.bind_eq_ok.1 (save_of_written hc ho hw)
  exact ⟨_, Fallible.mapError_eq_ok.1 hwrite⟩

/-- What a command writes is what the next one resumes from. -/
theorem Resumes.command (hx : Resumes rounds (p.cached d)) (hc : p.Asks d c i)
    (ho : Project.start d p.root p.given = .ok o)
    (ht : ∀ q ∈ p.watched d, ∀ t, d.modified? q = some t → t.Normal) :
    Resumes (⟨d, i, o⟩ :: rounds) (Round.saved ⟨d, i, o⟩) := by
  obtain ⟨hresult, hsession⟩ := start_ok hc ho
  obtain ⟨-, -, hfiles, hpending, hbuckets, hscopes⟩ := i.work_frame o
  have hindex : o.session.index = ((p.cached d).update p.config p.root d (p.watched d)).index := by
    rw [hsession]
  have hgenuine : o.session.index.Genuine := hindex ▸ hx.genuine.update ht
  have hreferences : o.session.index.references = (p.cached d).references :=
    hindex ▸ Index.references_update _ _ _ _ _
  refine ⟨?_, fun document => ?_, rfl, fun document path => ?_⟩
  · exact hgenuine.congr (hgenuine.coherent.congr hfiles hbuckets hscopes)
      (congrArg TreeMap.toList hfiles)
  · have hempty : (Round.saved ⟨d, i, o⟩).pending = ∅ :=
      hpending.trans (hindex ▸ (Index.mem_result_iff hresult).2)
    rw [hempty]
    exact TreeSet.not_mem_emptyc
  · have hrests : o.session.index.Rests document path ↔ (p.cached d).Rests document path :=
      ⟨fun h => h.congr hreferences.symm, fun h => h.congr hreferences⟩
    rw [Round.rests_saved, hrests, hx.rests, List.exists_mem_cons_iff, or_comm]

/-- So is what is read back from the cache. -/
theorem Resumes.restored {x y : Index} (hx : Resumes rounds x) (hy : y.Coherent)
    (h : x.Restores y) : Resumes rounds y where
  genuine := hx.genuine.congr hy h.files
  pending document := by
    rw [Maps.mem_set_iff, h.pending, ← Maps.mem_set_iff]
    exact hx.pending document
  files := h.files.trans hx.files
  rests document path := h.rests_iff.trans (hx.rests document path)

/-- **Whatever happened before, a command resumes from what the last one wrote.** -/
theorem resumes_of_ran (h : p.Ran rounds d) : Resumes rounds (p.cached d) := by
  have cached_of_read {d : Disk} : p.cached d =
      ((Index.load d p.cache).toOption.getD none).getD .empty := by
    unfold cached Config.cached?
    rw [p.cache_eq, Option.bind_some]
    cases Index.load d p.cache <;> rfl
  induction h with
  | @start d h =>
    obtain ⟨fault, hf⟩ := h
    have hnone : p.cached d = .empty := by
      rw [cached_of_read, Index.load, hf]
      cases fault <;> rfl
    rw [hnone]
    exact resumes_empty
  | edit h hcache ih =>
    rw [cached_of_read, Index.load, hcache, ← Index.load, ← cached_of_read]
    exact ih
  | @command rounds d c i now o h hc ho hw ht hf ih =>
    have hsaved := ih.command hc ho ht
    have hsave := save_of_written hc ho hw
    obtain ⟨-, -, hfiles, -⟩ := i.work_frame o
    have hfits : (Round.saved ⟨d, i, o⟩).Fits := by
      intro f hm
      rw [Round.saved, hfiles] at hm
      exact hf f hm
    obtain ⟨y, hload, hy⟩ := (Index.load_of_save hsaved.genuine.coherent hsaved.genuine.storable
      hsave).1 hfits
    rw [cached_of_read, hload]
    exact hsaved.restored (Index.coherent_load hload) hy

/-- The files that a command indexed are those that it found on the disk. -/
theorem kept_of_ran (h : p.Ran rounds d) :
    ∀ r ∈ rounds, ∀ e ∈ r.saved.files.toList, Index.Kept r.disk (p.watched r.disk) e := by
  induction h with
  | start h => simp
  | edit h hcache ih => exact ih
  | @command rounds d c i now o h hc ho hw ht hf ih =>
    refine List.forall_mem_cons.2 ⟨fun e he => ?_, ih⟩
    obtain ⟨hresult, hsession⟩ := start_ok hc ho
    obtain ⟨-, -, hfiles, -⟩ := i.work_frame o
    rw [Round.saved, hfiles, hsession] at he
    exact (Index.current_of_update hresult).1 e he

/-- The documents that the update of a command names. -/
theorem mem_invalidated_iff (h : p.Ran rounds d) (hc : p.Asks d c i)
    (ho : Project.start d p.root p.given = .ok o) (document : String) :
    document ∈ o.invalidated ↔
      ∃ r ∈ rounds.head?, ∃ e ∈ r.saved.files.toList,
        Index.Kept r.disk (p.watched r.disk) e ∧ ¬Index.Kept d (p.watched d) e ∧
          ∃ r' ∈ rounds, r'.Records document e.1 := by
  have hx := resumes_of_ran h
  rw [(Index.mem_result_iff (start_ok hc ho).1).1]
  unfold Attempt.Due
  dsimp only
  simp only [hx.pending document, false_or, hx.rests]
  constructor
  · rintro ⟨e, he, hchanged, hrecords⟩
    rw [hx.files] at he
    cases hr : rounds.head? with
    | none =>
      rw [hr] at he
      cases he
    | some r =>
      rw [hr] at he
      exact ⟨r, rfl, e, he, kept_of_ran h r (List.mem_of_mem_head? hr) e he, hchanged, hrecords⟩
  · rintro ⟨r, hr, e, he, -, hchanged, hrecords⟩
    refine ⟨e, ?_, hchanged, hrecords⟩
    rw [hx.files, Option.mem_def.1 hr]
    exact he

/-- A command behind which no watched file was changed leaves nothing to name. -/
theorem not_mem_invalidated (h : p.Ran rounds d) (hc : p.Asks d c i)
    (ho : Project.start d p.root p.given = .ok o)
    (hkept : ∀ r ∈ rounds.head?, ∀ e ∈ r.saved.files.toList, Index.Kept d (p.watched d) e)
    (document : String) : document ∉ o.invalidated := by
  intro hd
  obtain ⟨r, hr, e, he, -, hchanged, -⟩ := (mem_invalidated_iff h hc ho document).1 hd
  exact hchanged (hkept r hr e he)

/-- **What `index` lists.** A document is listed exactly if a command recorded it for a file that was
as it had been when the last command was carried out, and is no more. It does not matter what that
command was: what `query` or `members` found changed is not listed by an `index` behind it. -/
theorem index_lists_iff (h : p.Ran rounds d) (hc : p.Asks d c .index)
    (hw : (c.run d now).written = some p.cache) :
    ∃ x documents format,
      (c.run d now).output = (Report.index x documents).render p.root format ∧
      (∀ document, document ∈ documents ↔
        ∃ r ∈ rounds.head?, ∃ e ∈ r.saved.files.toList,
          Index.Kept r.disk (p.watched r.disk) e ∧ ¬Index.Kept d (p.watched d) e ∧
            ∃ r' ∈ rounds, r'.Records document e.1) ∧
      ((∀ r ∈ rounds.head?, ∀ e ∈ r.saved.files.toList, Index.Kept d (p.watched d) e) →
        ∀ document, document ∉ documents) := by
  obtain ⟨o, e, ho, -, -, -, format, houtput⟩ := Command.run_written hc.inquiry hc.project hw
  exact ⟨o.session.index, o.invalidated, format, houtput, mem_invalidated_iff h hc ho,
    not_mem_invalidated h hc ho⟩

end CachedProject

/-! ## A change that is taken -/

/-- Where no file is watched, an update succeeds, and no file is indexed behind it. -/
theorem Index.update_unwatched (x : Index) (c : Config) (root : Path) (d : Disk) :
    ∃ documents, (x.update c root d []).result = .ok documents ∧
      (x.update c root d []).index.files.toList = [] := by
  have hrefreshed : x.refreshed c root d [] = (x.dropStale d [], none) := rfl
  have hresult := (update_of_refreshed_ok hrefreshed).2
  refine ⟨_, hresult, List.eq_nil_iff_forall_not_mem.2 fun e he => ?_⟩
  obtain ⟨⟨p, hp, -⟩, -⟩ := (current_of_update hresult).1 e he
  cases hp

namespace CachedProject

variable {p : CachedProject} {d : Disk} {c : Command} {i : Inquiry} {now : Timestamp}

/-- Where no file is watched and the cache can be written, a command is carried out. -/
theorem exists_command (now : Timestamp) (hc : p.Asks d c i) (hunwatched : p.watched d = [])
    (hd : d.Writable p.cache) :
    ∃ o, Project.start d p.root p.given = .ok o ∧ o.session.index.files.toList = [] ∧
      (c.run d now).written = some p.cache := by
  obtain ⟨documents, hresult, hempty⟩ := (p.cached d).update_unwatched p.config p.root d
  obtain ⟨o, ho, hsession⟩ : ∃ o, Project.start d p.root p.given = .ok o ∧ o.session =
      { root := p.root, config := p.config,
        index := ((p.cached d).update p.config p.root d []).index } := by
    have hrefresh : (Session.start d p.root p.config).refresh d =
        ({ root := p.root, config := p.config,
           index := ((p.cached d).update p.config p.root d (p.watched d)).index },
          (p.cached d).update p.config p.root d (p.watched d)) := rfl
    rw [hunwatched] at hrefresh
    refine ⟨⟨_, documents, ((p.cached d).update p.config p.root d []).logs⟩, ?_, rfl⟩
    unfold Project.start
    rw [hc.config]
    refine Fallible.bind_eq_ok.2 ⟨_, rfl, ?_⟩
    rw [hrefresh]
    exact Fallible.bind_eq_ok.2 ⟨documents, Fallible.mapError_eq_ok.2 hresult, rfl⟩
  have hindex : o.session.index.files.toList = [] := by rw [hsession, hempty]
  obtain ⟨hroot, hconfig, hfiles, -⟩ := i.work_frame o
  have hcache : (i.work o).1.config.cacheFile? (i.work o).1.root = some p.cache := by
    rw [hroot, hconfig, hsession]
    exact p.cache_eq
  have hlasting : (i.work o).1.index.Lasting := by
    intro e he
    rw [hfiles, hindex] at he
    cases he
  obtain ⟨e, he⟩ := hlasting.exists_save hd now
  have hclose : (i.work o).1.close d now = .ok e := by
    rw [Session.close, hcache]
    exact he
  refine ⟨o, ho, hindex, ?_⟩
  rw [(Command.run_closed hc.inquiry hc.project ho hclose).2, hcache]

end CachedProject

/-! ### A header that is dropped -/

/-- A documented header. -/
def documentedHeader : String × Node :=
  ("f.h", .file "/// doc\nint f();\n".toUTF8.toList ⟨1000, 0⟩)

/-- A cache with some bytes. -/
def cacheOf (bytes : List UInt8) (now : Timestamp) : String × Node :=
  (".doccomb-cache.json", .file bytes now)

/-- The disk with some files in its root. -/
def diskOf (entries : List (String × Node)) : Disk :=
  { root := .directory entries, current := [] }

/-- The project in the root, with the configuration that goes without saying. -/
def rootProject : CachedProject where
  root := ⟨"/"⟩
  given := none
  config := .default
  cache := ⟨"/.doccomb-cache.json"⟩
  cache_eq := by decide

/-- Looks up the header's function on behalf of a guide. -/
def guideQuery : Command :=
  .query "function" ["int f()"] ⟨"", ""⟩ (some "guide") ⟨"/"⟩ ⟨none, none⟩

def guideInquiry : Inquiry :=
  .query ⟨"function", "int f()", "", ""⟩ (some "guide")

theorem asks_header : rootProject.Asks (diskOf [documentedHeader]) guideQuery guideInquiry where
  inquiry := rfl
  project := rfl
  config := rfl

/-- The cache is no source. -/
theorem watched_cache (bytes : List UInt8) (now : Timestamp) :
    rootProject.watched (diskOf [cacheOf bytes now]) = [] := by
  have hdirectory : (diskOf [cacheOf bytes now]).directory? ⟨"/"⟩ = some [cacheOf bytes now] := rfl
  have htakes : (Config.default.filters ⟨"/"⟩).takes ((⟨"/"⟩ : Path).join ⟨".doccomb-cache.json"⟩) =
      false := by decide +kernel
  have hselect : (Config.default.filters ⟨"/"⟩).select ⟨"/"⟩ [cacheOf bytes now] = [] := by
    simp [Filters.select, Filters.selectAt, cacheOf, htakes]
  simp [CachedProject.watched, Config.watched, Filters.files, rootProject, hdirectory, hselect]

/-- The guide is recorded for the header, and the index is in the cache. -/
theorem ran_recorded : ∃ o bytes content,
    (guideQuery.run (diskOf [documentedHeader]) ⟨2000, 0⟩).disk =
        diskOf [documentedHeader, cacheOf bytes ⟨2000, 0⟩] ∧
      rootProject.Ran [⟨diskOf [documentedHeader], guideInquiry, o⟩]
        (diskOf [documentedHeader, cacheOf bytes ⟨2000, 0⟩]) ∧
      Round.Records ⟨diskOf [documentedHeader], guideInquiry, o⟩ "guide" ⟨"/f.h"⟩ ∧
      (⟨"/f.h"⟩, content) ∈
        (Round.saved ⟨diskOf [documentedHeader], guideInquiry, o⟩).files.toList := by
  have hstart : ((Project.start (diskOf [documentedHeader]) ⟨"/"⟩ none).toOption.map fun o =>
      (o.session.index.files.toList.map Prod.fst, decide o.session.index.Fits,
        (o.session.index.find? ⟨.function, "", ""⟩ "int f()").map Comment.file)) =
      some ([⟨"/f.h"⟩], true, some ⟨"/f.h"⟩) := by decide +kernel
  have hwritten : (guideQuery.run (diskOf [documentedHeader]) ⟨2000, 0⟩).written =
      some rootProject.cache := by decide +kernel
  have htimes : ∀ q ∈ rootProject.watched (diskOf [documentedHeader]), ∀ t,
      (diskOf [documentedHeader]).modified? q = some t → t.Normal := by
    have hwatched : rootProject.watched (diskOf [documentedHeader]) = [⟨"/f.h"⟩] := by
      decide +kernel
    intro q hq t ht
    rw [hwatched] at hq
    obtain rfl := List.mem_singleton.1 hq
    cases ht
    exact ⟨by decide, by decide⟩
  cases ho : Project.start (diskOf [documentedHeader]) ⟨"/"⟩ none with
  | error f =>
    rw [ho] at hstart
    cases hstart
  | ok o =>
    rw [ho] at hstart
    obtain ⟨hfiles, hrest⟩ := Prod.mk.inj (Option.some.inj hstart)
    obtain ⟨hfits, hfile⟩ := Prod.mk.inj hrest
    obtain ⟨⟨path, content⟩, he, rfl⟩ := List.map_eq_singleton_iff.1 hfiles
    obtain ⟨comment, hfound, hfile⟩ := Option.map_eq_some_iff.1 hfile
    obtain ⟨bytes, hwrite⟩ := CachedProject.write_of_written asks_header ho hwritten
    have hdisk := Except.ok.inj (hwrite.symm.trans rfl :
      _ = .ok (diskOf [documentedHeader, cacheOf bytes ⟨2000, 0⟩]))
    have hran := CachedProject.Ran.command (.start ⟨_, rfl⟩) asks_header ho hwritten htimes
      (of_decide_eq_true hfits)
    rw [hdisk] at hran
    obtain ⟨-, -, hsaved, -⟩ := guideInquiry.work_frame o
    refine ⟨o, bytes, content, hdisk, hran, ⟨_, rfl, comment, hfound, ?_⟩, ?_⟩
    · rw [hfile]
      exact Std.ReflCmp.compare_self
    · rw [Round.saved, hsaved, he]
      exact List.mem_singleton_self _

/-- What is asked of a project whose one file is its cache. -/
theorem asks_cache (bytes : List UInt8) (now : Timestamp) {c : Command} {i : Inquiry}
    (hi : c.inquiry? = some i)
    (hp : c.project? (diskOf [cacheOf bytes now]) = some (⟨"/"⟩, none)) :
    rootProject.Asks (diskOf [cacheOf bytes now]) c i :=
  ⟨hi, hp, rfl⟩

theorem writable_cache (bytes : List UInt8) (now : Timestamp) :
    (diskOf [cacheOf bytes now]).Writable rootProject.cache :=
  ⟨[], ⟨0, 0⟩, _, rfl⟩

/-- Tells what the project holds. -/
def plainIndex : Command :=
  .index ⟨"/"⟩ ⟨none, none⟩

/-- Lists what is documented outside of any scope. -/
def plainMembers : Command :=
  .members ⟨"", ""⟩ ⟨"/"⟩ ⟨none, none⟩

/-- An `index` right behind the change lists the guide. -/
theorem index_lists_dropped : ∃ bytes x documents format,
    (guideQuery.run (diskOf [documentedHeader]) ⟨2000, 0⟩).disk =
        diskOf [documentedHeader, cacheOf bytes ⟨2000, 0⟩] ∧
      (plainIndex.run (diskOf [cacheOf bytes ⟨2000, 0⟩]) ⟨2001, 0⟩).output =
        (Report.index x documents).render rootProject.root format ∧
      "guide" ∈ documents := by
  obtain ⟨o, bytes, content, hdisk, hran, hrecords, hcontent⟩ := ran_recorded
  have hdropped : rootProject.Ran _ (diskOf [cacheOf bytes ⟨2000, 0⟩]) := hran.edit rfl
  have hasks : rootProject.Asks (diskOf [cacheOf bytes ⟨2000, 0⟩]) plainIndex .index :=
    asks_cache _ _ rfl rfl
  have hunwatched := watched_cache bytes ⟨2000, 0⟩
  obtain ⟨o', -, -, hwritten⟩ := CachedProject.exists_command ⟨2001, 0⟩ hasks hunwatched
    (writable_cache _ _)
  obtain ⟨x, documents, format, houtput, hlisted, -⟩ :=
    CachedProject.index_lists_iff hdropped hasks hwritten
  refine ⟨bytes, x, documents, format, hdisk, houtput, (hlisted "guide").2
    ⟨_, rfl, _, hcontent, ?_, ?_, _, List.mem_cons_self, hrecords⟩⟩
  · exact CachedProject.kept_of_ran hdropped _ List.mem_cons_self _ hcontent
  · rintro ⟨⟨p, hp, -⟩, -⟩
    rw [hunwatched] at hp
    cases hp

/-- **A change that is taken.** The guide is recorded for a header, which is dropped. The `members`
behind that is carried out, and so is the `index` behind it, which does not list the guide. -/
theorem members_takes_change : ∃ bytes bytes' x documents format,
    (guideQuery.run (diskOf [documentedHeader]) ⟨2000, 0⟩).disk =
        diskOf [documentedHeader, cacheOf bytes ⟨2000, 0⟩] ∧
      (rootProject.cached (diskOf [documentedHeader, cacheOf bytes ⟨2000, 0⟩])).Rests
        "guide" ⟨"/f.h"⟩ ∧
      (plainMembers.run (diskOf [cacheOf bytes ⟨2000, 0⟩]) ⟨2001, 0⟩).exit = 0 ∧
      (plainMembers.run (diskOf [cacheOf bytes ⟨2000, 0⟩]) ⟨2001, 0⟩).disk =
        diskOf [cacheOf bytes' ⟨2001, 0⟩] ∧
      (plainIndex.run (diskOf [cacheOf bytes' ⟨2001, 0⟩]) ⟨2002, 0⟩).exit = 0 ∧
      (plainIndex.run (diskOf [cacheOf bytes' ⟨2001, 0⟩]) ⟨2002, 0⟩).output =
        (Report.index x documents).render rootProject.root format ∧
      "guide" ∉ documents := by
  obtain ⟨o, bytes, content, hdisk, hran, hrecords, hcontent⟩ := ran_recorded
  have hrests := ((CachedProject.resumes_of_ran hran).rests "guide" ⟨"/f.h"⟩).2
    ⟨_, List.mem_cons_self, hrecords⟩
  -- the change is taken
  have hdropped : rootProject.Ran _ (diskOf [cacheOf bytes ⟨2000, 0⟩]) := hran.edit rfl
  have hmembers : rootProject.Asks (diskOf [cacheOf bytes ⟨2000, 0⟩]) plainMembers
      (.members ⟨"", ""⟩) := asks_cache _ _ rfl rfl
  obtain ⟨o₁, ho₁, hempty, hwritten₁⟩ := CachedProject.exists_command ⟨2001, 0⟩ hmembers
    (watched_cache _ _) (writable_cache _ _)
  obtain ⟨o₁', -, -, -, -, hexit₁, -⟩ :=
    Command.run_written hmembers.inquiry hmembers.project hwritten₁
  obtain ⟨bytes', hwrite⟩ := CachedProject.write_of_written hmembers ho₁ hwritten₁
  have hdisk₁ := Except.ok.inj (hwrite.symm.trans rfl : _ = .ok (diskOf [cacheOf bytes' ⟨2001, 0⟩]))
  have htaken := CachedProject.Ran.command hdropped hmembers ho₁ hwritten₁
    (by rw [watched_cache]; simp) (fun e he => by rw [hempty] at he; cases he)
  rw [hdisk₁] at htaken
  -- and nothing is left to name
  have hindex : rootProject.Asks (diskOf [cacheOf bytes' ⟨2001, 0⟩]) plainIndex .index :=
    asks_cache _ _ rfl rfl
  obtain ⟨o₂, ho₂, -, hwritten₂⟩ := CachedProject.exists_command ⟨2002, 0⟩ hindex
    (watched_cache _ _) (writable_cache _ _)
  obtain ⟨o₂', -, ho₂', -, -, hexit₂, format, houtput⟩ :=
    Command.run_written hindex.inquiry hindex.project hwritten₂
  cases ho₂.symm.trans ho₂'
  refine ⟨bytes, bytes', _, _, format, hdisk, hrests, hexit₁, hdisk₁, hexit₂, houtput,
    CachedProject.not_mem_invalidated htaken hindex ho₂ ?_ _⟩
  rintro r ⟨⟩ e he
  obtain ⟨-, -, hfiles, -⟩ := (Inquiry.members ⟨"", ""⟩).work_frame o₁
  rw [Round.saved, hfiles, hempty] at he
  cases he

end DocIndex
