import FlowerExchange.App.Application
import FlowerExchange.App.FileProcessingPipeline

def filename (path : Bytes) : Bytes :=
  (path.reverse.takeWhile (· ≠ 47)).reverse

def parentPath (path : Bytes) : Bytes :=
  path.take (path.length - (filename path).length)

-- The last part of a path without its extension. A name that only begins with a dot has none.
def stem (path : Bytes) : Bytes :=
  let name := filename path
  let behindDot := (name.reverse.takeWhile (· ≠ 46)).length
  if name = ascii "." ∨ name = ascii ".." then
    name
  else if behindDot + 1 < name.length then
    name.take (name.length - (behindDot + 1))
  else
    name

-- The operator `/` for a name that is no path of its own.
def appendPath (directory name : Bytes) : Bytes :=
  if directory = [] ∨ directory.getLast? = some 47 then directory ++ name else directory ++ 47 :: name

def CsvReportWriter.outputPath (outputDirectory inputPath : Bytes) : Bytes :=
  appendPath outputDirectory (stem inputPath ++ ascii "_reports.csv")

-- What the program depends on that is not its doing: the directories that the front parts of paths lead to
-- (there are no links), those that exist or can be created, the files that can be opened to be written, the
-- cores that threads can be pinned to, and for each call of `process_file` the times that are read and the
-- turns of the threads.
structure World (δ : Type) where
  directory   : Bytes → δ
  creatable   : Bytes → Bool
  writable    : δ × Bytes → Bool
  pinnable    : Nat → Bool
  environment : Nat → Environment
  schedule    : Nat → Stream' Thread

abbrev Files (δ : Type) := δ × Bytes → Option Bytes

namespace World

variable {δ : Type}

def locate (w : World δ) (path : Bytes) : δ × Bytes :=
  (w.directory (parentPath path), filename path)

def input (w : World δ) (path : Bytes) : δ × Bytes :=
  w.locate path

def output (w : World δ) (outputDirectory path : Bytes) : δ × Bytes :=
  w.locate <| CsvReportWriter.outputPath outputDirectory path

end World

structure Program (m n : Nat) (δ : Type) where
  files     : Files δ
  inbound   : InboundOrderQueue m
  outbound  : OutboundReportQueue n
  processor : OrderProcessor
  calls     : Nat

namespace Program

variable {m n : Nat} {δ : Type} [DecidableEq δ]

def start (files : Files δ) : Program m n δ where
  files     := files
  inbound   := .empty
  outbound  := .empty
  processor := .new
  calls     := 0

def producerCore : Nat := 0
def matcherCore : Nat := 1

-- A call of `process_file` that returns. There is none when the output directory cannot be created, as the
-- exception is not caught, or when a thread cannot be pinned to its core, as it ends the program then.
inductive ProcessFile (w : World δ) (outputDirectory path : Bytes) (s : Program m n δ) :
    Program m n δ → Prop
  | unprepared (hc : w.creatable outputDirectory)
      (h : w.writable (w.output outputDirectory path) = false) :
    ProcessFile w outputDirectory path s { s with
      inbound   := s.inbound.clear
      outbound  := s.outbound.clear
      processor := s.processor.reset
      calls     := s.calls + 1 }
  | processed {file : Option InputFile} {k : Nat} {p : FileProcessingPipeline m n}
      (hc : w.creatable outputDirectory)
      (h : w.writable (w.output outputDirectory path))
      (hp₀ : w.pinnable producerCore) (hp₁ : w.pinnable matcherCore)
      -- The output file has been emptied when the input file is opened.
      (hf : file.map InputFile.bytes =
        Function.update s.files (w.output outputDirectory path) (some []) (w.input path))
      (hp : p = (FileProcessingPipeline.start s.inbound s.outbound s.processor file).run
        (w.environment s.calls) ((w.schedule s.calls).take k))
      (he : p.ended) :
    ProcessFile w outputDirectory path s
      { files     := Function.update s.files (w.output outputDirectory path) (some p.writer.outputFile)
        inbound   := p.shared.inbound
        outbound  := p.shared.outbound
        processor := p.matcher.processor
        calls     := s.calls + 1 }

inductive ProcessFiles (w : World δ) (outputDirectory : Bytes) :
    List Bytes → Program m n δ → Program m n δ → Prop
  | nil (s : Program m n δ) : ProcessFiles w outputDirectory [] s s
  | cons {path : Bytes} {paths : List Bytes} {s s' s'' : Program m n δ}
      (h : ProcessFile w outputDirectory path s s') (hs : ProcessFiles w outputDirectory paths s' s'') :
    ProcessFiles w outputDirectory (path :: paths) s s''

def Main (w : World δ) (stream : Bytes) (files : Files δ) (paths : List Bytes) (s : Program m n δ) : Prop :=
  (∃ k, Application.run k ⟨{ rest := stream }, []⟩ = (paths, true)) ∧
    ProcessFiles w (ascii "output") paths (start files) s

end Program
