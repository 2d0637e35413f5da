import Asper.Event.Log
import Asper.Base.Proof.Os

/-! # What the operations on a log touch

Opening, reading and appending stay inside any set of nodes that holds the log, its index and the
temporary index with the directories on the way (`LogIn`). -/

namespace Asper

open Durable

/-- `G` holds the files of the log at `path`. -/
structure LogIn (G : Path → Prop) (path : Path) : Prop where
  log : Covers G path
  index : Covers G (indexPath path)
  tmp : Covers G (indexTmp path)
  ne : path ≠ []

theorem ext_ne_nil (p : Path) (s : Bytes) : ext p s ≠ [] := by simp [ext]

theorem indexPath_ne_nil (p : Path) : indexPath p ≠ [] := ext_ne_nil _ _

theorem indexTmp_ne_nil (p : Path) : indexTmp p ≠ [] := ext_ne_nil _ _

section
variable {G : Path → Prop} {path : Path} (D : Digest)

theorem confined_rebuild (h : LogIn G path) (log : Bytes) :
    Act.Confined G (rebuild D path log) := by
  have hinto : Act.Confined G (rebuildInto D path log) := by
    refine .bind (.lift _) fun s => ?_
    have htail : Act.Confined G (do
        osAppend (indexTmp path) s.rows
        osFileReplace (indexTmp path) (indexPath path)
        pure (⟨log.take s.good, s.rows, s.count⟩ : EventFiles) : Io EventFiles) :=
      .bind (confined_osAppend h.tmp (indexTmp_ne_nil _) _) fun _ =>
        .bind (confined_osFileReplace h.tmp h.index (indexTmp_ne_nil _) (indexPath_ne_nil _)) fun _ =>
          .pure _
    dsimp only
    split
    · exact .bind (confined_osTruncate h.log h.ne _) fun _ => htail
    · exact htail
  refine .bind (confined_osWriteFile h.tmp (indexTmp_ne_nil _) _) fun _ => .bind hinto.attempt fun r => ?_
  cases r with
  | ok fs => exact .pure _
  | error e =>
    exact .bind (confined_ignore (confined_osRemoveFile h.tmp (indexTmp_ne_nil _))) fun _ => .fail _

theorem confined_filesOpen (h : LogIn G path) : Act.Confined G (filesOpen D path) := by
  refine .bind (confined_osBlobOpen h.log) fun log => .bind (confined_require _) fun _ =>
    .bind (confined_orElse (confined_osBlobOpen h.index) _ _) fun index => ?_
  rw [filesUse]
  split
  · exact .pure _
  · exact confined_rebuild D h log

theorem confined_filesRow (h : LogIn G path) (fs : EventFiles) (seq : Nat) :
    Act.Confined G (filesRow D path fs seq) := by
  refine .bind (confined_require _) fun _ => ?_
  split
  · exact .pure _
  · refine .bind (confined_rebuild D h _) fun fs => ?_
    split
    · exact .pure _
    · exact .fail _

theorem confined_filesRead (h : LogIn G path) (fs : EventFiles) (seq : Nat) :
    Act.Confined G (filesRead D path fs seq) := by
  refine .bind (confined_filesRow D h fs seq) fun (fs, a, b) => ?_
  dsimp only
  split
  · exact .fail _
  · exact .ite (.fail _) (.pure _)

theorem confined_filesHead (h : LogIn G path) (fs : EventFiles) (seq : Nat) :
    Act.Confined G (filesHead D path fs seq) := by
  refine .bind (confined_filesRow D h fs seq) fun (fs, a, b) => ?_
  dsimp only
  split
  · exact .fail _
  · exact .ite (.fail _) (.pure _)

theorem confined_pageFrom (h : LogIn G path) (query : Bytes) (limit : Nat) :
    ∀ (fuel : Nat) (fs : EventFiles) (cursor : Nat) (page : List Event),
      Act.Confined G (pageFrom D path query limit fuel fs cursor page)
  | 0, _, _, _ => .pure _
  | fuel + 1, fs, _, _ =>
    .ite (.bind (confined_filesRead D h fs _) fun (_, fs) =>
      .ite (confined_pageFrom h query limit fuel fs _ _)
        (confined_pageFrom h query limit fuel fs _ _)) (.pure _)

theorem confined_eventLogPage (h : LogIn G path) (query : Bytes) (after limit : Nat) :
    Act.Confined G (eventLogPage D path query after limit) := by
  refine .bind (confined_filesOpen D h).attempt fun r => ?_
  cases r with
  | ok fs => exact confined_pageFrom D h query limit _ fs after []
  | error e =>
    cases e with
    | notFound => exact .pure _
    | _ => exact .fail _

theorem confined_eventLogAppend (h : LogIn G path) (event : Event) :
    Act.Confined G (eventLogAppend D path event) := by
  refine .bind (confined_orElse (confined_filesOpen D h) _ _) fun fs =>
    .bind (confined_require _) fun _ => ?_
  rw [appendFrame]
  split
  · exact .bind (confined_osAppend h.log h.ne _) fun _ => .fail _
  · refine .bind (confined_osAppend h.log h.ne _) fun _ => .bind ?_ fun _ => .pure _
    exact .ite (confined_ignore (confined_osWriteFile h.index (indexPath_ne_nil _) _))
      (confined_ignore (confined_osAppend h.index (indexPath_ne_nil _) _))

end

end Asper
