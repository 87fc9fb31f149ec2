import RecordCodec.Proofs.Codec.Decoding
import RecordCodec.Proofs.Program.Tiling

/-!
# Runs of compiled codecs

In every block of a compiled codec's program, at whatever depth, each maximal run of
word reads is tiled by them: the spans of the reads follow each other without gap or
overlap, and the next operation that moves the cursor, or the tail of the block, moves
it by the bytes of the run. Loops inside one another for the dimensions of one array
have no such bytes between them.
-/

namespace RecordCodec

/-- A run of word reads in a block that ends on either side where the cursor moves or
the block does, with the operations before and behind it. -/
structure Block.Run (block : Block Op) (front run rest : List Op) : Prop where
  ops_eq : block.ops = front ++ run ++ rest
  reads : ∀ op ∈ run, ∃ span, op.span? = some span
  behind_move : ∀ op ∈ front.getLast?, op.span? = none
  before_move : ∀ op ∈ rest.head?, op.span? = none

namespace Block.Run

variable {block : Block Op} {front run rest : List Op}

/-- What holds of a block and is inherited from the operations around a move by those behind
it holds of a run and what follows. -/
theorem of_block {motive : List Op → Prop} (h : block.Run front run rest)
    (hblock : motive block.ops)
    (hmove : ∀ before op after, op.span? = none → motive (before ++ op :: after) → motive after) :
    motive (run ++ rest) := by
  rw [h.ops_eq, List.append_assoc] at hblock
  rcases front.eq_nil_or_concat with rfl | ⟨others, last, rfl⟩
  · exact hblock
  · rw [List.concat_eq_append, List.append_assoc] at hblock
    exact hmove others last _ (h.behind_move last (by simp)) hblock

/-- A run starts with nothing pending. -/
theorem tiles (h : block.Run front run rest) (hblock : Op.Tiles 0 block.ops block.tail) :
    Op.Tiles 0 (run ++ rest) block.tail :=
  h.of_block (motive := fun ops => Op.Tiles 0 ops block.tail) hblock
    fun _ _ _ hop htiles => .behind_move hop htiles

/-- Each read of a run starts behind the bits of those before it. -/
theorem startsAt (h : block.Run front run rest) (hblock : Op.Tiles 0 block.ops block.tail)
    {before after : List Op} {op : Op} (hop : run = before ++ op :: after) :
    ∃ span, op.span? = some span ∧ span.StartsAt (Op.runBits before) := by
  obtain ⟨span, hspan⟩ := h.reads op (by simp [hop])
  have htiles := h.tiles hblock
  rw [hop, List.append_assoc] at htiles
  have hbehind := Op.Tiles.behind_reads
    (fun other hmem => h.reads other (by simp [hop, hmem])) htiles
  rw [Nat.zero_add] at hbehind
  exact ⟨span, hspan, (Op.Tiles.span_startsAt hbehind hspan).1⟩

theorem tiles_rest (h : block.Run front run rest) (hblock : Op.Tiles 0 block.ops block.tail) :
    Op.Tiles (Op.runBits run) rest block.tail := by
  have hrest := Op.Tiles.behind_reads h.reads (h.tiles hblock)
  rwa [Nat.zero_add] at hrest

/-- The move behind a run skips the bytes of the run. -/
theorem skip_eq (h : block.Run front run rest) (hblock : Op.Tiles 0 block.ops block.tail)
    {op : Op} (hop : op ∈ rest.head?) : op.skip? = some (Op.runBits run / 8) := by
  have hrest := h.tiles_rest hblock
  obtain ⟨others, rfl⟩ := List.head?_eq_some_iff.mp hop
  obtain ⟨skip, hskip, hbits, _⟩ := Op.Tiles.skip_eq hrest (h.before_move op hop)
  rw [hskip]
  congr 1
  omega

/-- A run at the end of its block is the tail of the block. -/
theorem tail_eq (h : block.Run front run []) (hblock : Op.Tiles 0 block.ops block.tail) :
    block.tail = Op.runBits run / 8 := by
  cases h.tiles_rest hblock with
  | done hbits => omega

end Block.Run

namespace Codec

variable {schema : Schema} {options : Options} {codec : Codec}

theorem emitted_program (h : compile schema options = .ok codec) : codec.program.Emitted := by
  obtain ⟨_, _, hprogram⟩ := compile_eq_ok h
  rw [hprogram]
  exact (wellFormed_shape h).emitted_program schema.name

/-- Every maximal run of word reads, in any block of the program, is tiled by its reads
and moved over as a whole, and so is the empty run. A loop right inside another one
has the block of it to itself, with nothing to move over. -/
theorem reads_tile_runs (h : compile schema options = .ok codec) :
    (∀ block front run rest, codec.program.HasBlock block → block.Run front run rest →
      (∀ before op after, run = before ++ op :: after →
        ∃ span, op.span? = some span ∧ span.StartsAt (Op.runBits before)) ∧
      (∀ op ∈ rest.head?, op.skip? = some (Op.runBits run / 8)) ∧
      (rest = [] → block.tail = Op.runBits run / 8)) ∧
    ∀ entry body op, .nested entry .dynamicArray body ∈ codec.program.allOps →
      op ∈ body.ops → op.IsLoop → body = ⟨[op], 0⟩ ∧ op.LoopsBehind 0 := by
  have hprogram := emitted_program h
  constructor
  · intro block front run rest hblock hrun
    have htiles := (hprogram.block hblock).tiles
    refine ⟨?_, ?_, ?_⟩
    · intro before op after hop
      exact hrun.startsAt htiles hop
    · intro op hop
      exact hrun.skip_eq htiles hop
    · rintro rfl
      exact hrun.tail_eq htiles
  · intro entry body op hmem hop hloop
    exact (hprogram.ops _ hmem).inner_loop hop hloop

/-- A byte string that does not fit behind an address, and rows of numbers behind both. -/
theorem reads_tile_address_and_key : ∃ codec,
    compile ⟨"r", "tuple", [⟨"who", "address", []⟩, ⟨"key", "bytes16", []⟩,
      ⟨"rows", "uint8[][]", []⟩]⟩ {} = .ok codec ∧
    ∃ who key rows, codec.program.body = ⟨[who, key, rows], 0⟩ ∧
      key.span? = some ⟨20, 0, 128⟩ ∧ Span.StartsAt ⟨20, 0, 128⟩ (Op.runBits [who]) ∧
      rows.skip? = some (Op.runBits [who, key] / 8) ∧
      ∃ entry row, rows = .nested entry .dynamicArray ⟨[row], 0⟩ ∧ row.LoopsBehind 0 := by
  let who : Op := .primitive .address ⟨"who", 0, 0, 96, 160⟩
  let key : Op := .fixedBytes ⟨"key", 1, 20, 0, 128⟩
  let row : Op := .lengthPrefixed ⟨"rows[]", 0, 0⟩ (.elements ⟨.primitive (.uint 8), 1, 248, 8⟩)
  let rows : Op := .nested ⟨"rows", 2, 36⟩ .dynamicArray ⟨[row], 0⟩
  let shape : Shape := .tuple [("who", .leaf (.primitive .address)),
    ("key", .leaf (.fixedBytes 16)),
    ("rows", .array .dynamic (.array .dynamic (.leaf (.primitive (.uint 8)))))]
  have hprogram : shape.program "r" = ⟨"r", .tuple, ⟨[who, key, rows], 0⟩⟩ := by cbv
  have hcodec : compile ⟨"r", "tuple", [⟨"who", "address", []⟩, ⟨"key", "bytes16", []⟩,
      ⟨"rows", "uint8[][]", []⟩]⟩ {} = .ok ⟨"r", shape,
        [⟨"R", [⟨"who", "address"⟩, ⟨"key", "bytes16"⟩, ⟨"rows", "uint8[][]"⟩]⟩],
        shape.program "r"⟩ := rfl
  rw [hprogram] at hcodec
  have hrun : Block.Run ⟨[who, key, rows], 0⟩ [] [who, key] [rows] :=
    ⟨rfl, by simp [who, key, Op.span?], by simp, by simp [rows, Op.span?]⟩
  obtain ⟨hruns, hloops⟩ := reads_tile_runs hcodec
  obtain ⟨hreads, hskip, _⟩ := hruns _ _ _ _ (.inl rfl) hrun
  obtain ⟨span, hspan, hstart⟩ := hreads [who] key [] rfl
  have hrows : rows ∈ Program.allOps ⟨"r", .tuple, ⟨[who, key, rows], 0⟩⟩ := by
    simp [Program.allOps, Op.allIn, Op.all, rows]
  obtain ⟨_, hinner⟩ := hloops _ _ row hrows (by simp) trivial
  cases hspan
  exact ⟨_, hcodec, who, key, rows, rfl, rfl, hstart, hskip rows (by simp), _, row, rfl, hinner⟩

end Codec

end RecordCodec
