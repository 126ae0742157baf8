import MiniQuorum.Lsm.Compaction
import MiniQuorum.Lsm.TableRoundTrip
import MiniQuorum.Lsm.Versions
import MiniQuorum.Lsm.Volumes

/-! Tables on disk, the handles that read them, and how a table gets there. -/

namespace MiniQuorum.Lsm

open Codec Program Volume SimFile

variable {P : Path → Prop} {H : FileID → Prop} {v v' : Volume} {fs : SimFS} {dir b : Bytes}
  {t : Table} {table : TableHandle} {reader : SSTableReader}

/-! ### Tables on disk -/

/-- The bytes `b` are the table `t`. -/
structure Reads (b : Bytes) (reader : SSTableReader) (t : Table) : Prop where
  tableOf : TableOf b reader t.entries
  storable : ∀ e ∈ t.entries, Storable e

def Stored (v : Volume) (dir : Bytes) (t : Table) : Prop :=
  ∃ n b reader, v.Settled ⟨dir, t.metadata.file⟩ n b ∧ Reads b reader t

/-- `table` is an open handle on `t`. -/
structure Serves (v : Volume) (dir : Bytes) (table : TableHandle) (t : Table) : Prop where
  metadata : table.metadata = t.metadata
  file : ∃ n b, v.Settled ⟨dir, t.metadata.file⟩ n b ∧ v.Opened table.file n ∧
    Reads b table.reader t

theorem Stored.keeps (h : Stored v dir t) (hk : Keeps P H v v') (hp : P ⟨dir, t.metadata.file⟩) :
    Stored v' dir t := by
  obtain ⟨n, b, reader, hsettled, hreads⟩ := h
  exact ⟨n, b, reader, hsettled.keeps hk hp, hreads⟩

theorem Serves.keeps (h : Serves v dir table t) (hk : Keeps P H v v')
    (hp : P ⟨dir, t.metadata.file⟩) (hf : H table.file) : Serves v' dir table t := by
  obtain ⟨n, b, hsettled, hopened, hreads⟩ := h.file
  exact ⟨h.metadata, n, b, hsettled.keeps hk hp, hopened.keeps hk hf, hreads⟩

theorem Serves.lt (h : Serves v dir table t) : table.file < v.nextFile := by
  obtain ⟨n, b, -, hopened, -⟩ := h.file
  exact hopened.lt

theorem Serves.stored (h : Serves v dir table t) : Stored v dir t := by
  obtain ⟨n, b, hsettled, -, hreads⟩ := h.file
  exact ⟨n, b, table.reader, hsettled, hreads⟩

theorem Stored.entries_eq {u : Table} (ht : Stored v dir t) (hu : Stored v dir u)
    (hfile : u.metadata.file = t.metadata.file) : u.entries = t.entries := by
  obtain ⟨n, b, reader, hsettled, hreads⟩ := ht
  obtain ⟨n', b', reader', hsettled', hreads'⟩ := hu
  rw [hfile] at hsettled'
  obtain rfl : n' = n := Option.some.inj (hsettled'.live.symm.trans hsettled.live)
  obtain rfl : b' = b := congrArg SimInode.data (hsettled'.inode.symm.trans hsettled.inode)
  obtain rfl : reader' = reader :=
    Except.ok.inj (hreads'.tableOf.opens.symm.trans hreads.tableOf.opens)
  exact Except.ok.inj (hreads'.tableOf.reads.symm.trans hreads.tableOf.reads)

theorem TableOf.sorted {entries : List TableEntry} (h : TableOf b reader entries) :
    entries.Pairwise RecordOrder := by
  obtain ⟨groups, rfl, hscanned⟩ := allEntries_scanned h.reads
  exact sorted_flatten hscanned.blocks hscanned.ordered

theorem TableOf.entryCount {entries : List TableEntry} (h : TableOf b reader entries) :
    reader.entryCount = entries.length := by
  have hreads := h.reads
  simp only [SSTableReader.allEntries, Reading.eval_bind_eq_ok, Reading.eval_failIf_eq_ok,
    not_not] at hreads
  obtain ⟨all, -, -, hcount, -, -, heq⟩ := hreads
  cases heq
  exact hcount.symm

/-! ### Writing a table -/

theorem writeOutput_spec {entries : List TableEntry} {q : Path} {n : InodeID} {f : FileID}
    (hfile : fs.OnFile q n f) (hempty : (fs.inodes n).data = [])
    (hoffset : (fs.files f).offset = 0) :
    wp (writeOutput f entries)
      (fun _ fs' => ∃ b, encodeTable entries = .ok b ∧ b.length ≤ maxInt64 ∧
        fs'.Synced q n b ∧ Keeps (· ≠ q) (· ≠ f) fs.toVolume fs'.toVolume)
      (fun _ _ => True) fs := by
  rw [writeOutput, wp_bind, wp_wrap, SSTableWriter.finish]
  cases hencode : encodeTable entries with
  | error err => trivial
  | ok b =>
    obtain ⟨hsynced, -, hkeeps⟩ := hfile.append (H := (· ≠ f)) hempty hoffset b
    show wp (_ >>= _) _ _ _
    rw [wp_bind]
    refine wp_imp (write_spec f b fs) ?_
    rintro - written ⟨hsize, hwritten⟩
    rw [hoffset, Nat.zero_add] at hsize
    rw [wp_pure, wp_bind, wp_wrap]
    refine wp_imp (sync_spec f written) ?_
    intro _ synced hvol
    rw [hwritten] at hvol
    rw [wp_wrap]
    refine wp_imp (close_spec f synced) ?_
    intro _ closed hclosed
    rw [hvol] at hclosed
    have hclose {P : Path → Prop} : Keeps P (· ≠ f) _ closed.toVolume := hclosed ▸ keeps_close f
    exact ⟨b, rfl, hsize, hsynced.keeps (hclose (P := fun _ => True)) trivial, hkeeps.trans hclose⟩

/-! ### Opening a table -/

theorem run_opened {α : Type} {x : Reading Err α} {a : α} {f : FileID} (hbytes : fs.bytes f = b)
    (heval : x.eval (slice b) .eof = .ok a) :
    wp (x.run (readAtFull f)) (fun r fs' => r = a ∧ fs'.toVolume = fs.toVolume) (fun _ _ => True)
      fs := by
  refine wp_imp (run_spec f x fs) ?_
  rintro r fs' ⟨hr, hvol⟩
  rw [hbytes, heval] at hr
  exact ⟨(Except.ok.inj hr).symm, hvol⟩

theorem openTableOwned_spec (hstored : Stored fs.toVolume dir t) (hproper : fs.Proper)
    (maxSequence : Nat) :
    wp (openTableOwned dir t.metadata maxSequence)
      (fun r fs' => ∀ table, r = .ok table → Serves fs'.toVolume dir table t ∧
        table.file = fs.nextFile ∧
        Keeps (fun _ => True) (fun _ => True) fs.toVolume fs'.toVolume)
      (fun _ _ => True) fs := by
  obtain ⟨n, b, reader, hsettled, hreads⟩ := hstored
  rw [openTableOwned]
  generalize hp : (⟨dir, t.metadata.file⟩ : Path) = p at *
  rw [wp_bind, wp_attempt]
  refine wp_mono (SimFS.stat_spec p fs) ?_ (fun _ _ _ => by rintro table ⟨⟩)
  rintro size found ⟨k, hk, rfl, hfound⟩
  obtain rfl : n = k := Option.some.inj (hsettled.live.symm.trans hk)
  rw [hsettled.inode]
  rw [← hfound] at hsettled hproper hk ⊢
  rw [wp_bind, wp_attempt]
  refine wp_mono (SimFS.openMode_spec false p found) ?_ (fun _ _ _ => by rintro table ⟨⟩)
  rintro f opened ⟨k, hk', rfl, hopened⟩
  obtain rfl : n = k := Option.some.inj (hk.symm.trans hk')
  have hkeeps : Keeps (fun _ => True) (fun _ => True) found.toVolume opened.toVolume := by
    rw [hopened]
    exact keeps_newFile (hproper.names_lt p n (.inl hk)) p _
  have hfile : opened.Opened found.nextFile n := by
    rw [hopened]
    exact opened_newFile n p _
  have hs := hsettled.keeps hkeeps trivial
  rw [wp_bind, wp_attempt]
  refine wp_mono (run_opened (hfile.bytes_eq hs) hreads.tableOf.opens) ?_
    (fun _ _ _ => by rintro table ⟨⟩)
  rintro _ read ⟨rfl, hread⟩
  refine wp_ite (fun _ => by rintro table ⟨⟩) fun _ => ?_
  rw [wp_bind, wp_attempt]
  refine wp_mono (run_opened (hread ▸ hfile.bytes_eq hs) hreads.tableOf.reads) ?_
    (fun _ _ _ => by rintro table ⟨⟩)
  rintro _ checked ⟨rfl, hchecked⟩
  refine wp_ite (fun _ => by rintro table ⟨⟩) fun _ => ?_
  rintro table ⟨⟩
  rw [hchecked, hread]
  exact ⟨⟨rfl, n, b, hp ▸ hs, hfile, hreads⟩, rfl, hkeeps⟩

end MiniQuorum.Lsm
