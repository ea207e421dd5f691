import PureOS.Foundation.Run
import PureOS.Foundation.Slice
import PureOS.Foundation.Forest
import PureOS.Fs.State
import PureOS.Fs.Init
import PureOS.Fs.Exec
import PureOS.Fs.Invariant
import PureOS.Fs.Refinement
import PureOS.Fs.Cwd
import PureOS.Foundation.Word
import PureOS.Process.Ipc
import PureOS.Foundation.Session
import PureOS.Process.Exec
import PureOS.Process.Rendezvous
import PureOS.Process.Death
import PureOS.Barrel.Scan
import PureOS.Barrel.Compiler
import PureOS.Barrel.Progress
import PureOS.Barrel.Safety
import PureOS.Barrel.Fuel
import PureOS.Barrel.Stops
import PureOS.Foundation.Cpu
import PureOS.Barrel.Language
import PureOS.Barrel.Blocks
import PureOS.Barrel.Simulation
import PureOS.Barrel.Codegen
import PureOS.Barrel.Translation
import PureOS.Barrel.Simulation
import PureOS.Barrel.Correct
import PureOS.Net.Panic
import PureOS.Net.Demux
import PureOS.Files.Identity
import PureOS.Abi.Agreement
import PureOS.Memory.Elf
import PureOS.Memory.Reads
import PureOS.Memory.Ledger
import PureOS.Memory.Taking
import PureOS.Memory.Growth
import PureOS.Memory.Mapping
import PureOS.Memory.Pages
import PureOS.Memory.Loops
import PureOS.Net.Datagram
import PureOS.Desktop.WindowSet
import PureOS.Desktop.Escape
import PureOS.Foundation.Bits
import PureOS.Foundation.Canonical
import PureOS.Jpeg.Reader
import PureOS.Jpeg.Huffman
import PureOS.Jpeg.RoundTrip
import PureOS.Net.Dns
import PureOS.Net.Handlers
import PureOS.Net.Answers
import PureOS.Foundation.Parse
import PureOS.Jpeg.Markers
import PureOS.Jpeg.Walk
import PureOS.Jpeg.Stream
import PureOS.Foundation.LowBits
import PureOS.Gif.Reader
import PureOS.Foundation.Turns
import PureOS.Gif.Lzw
import PureOS.Gif.Coding
import PureOS.Gif.RoundTrip
import PureOS.Gif.Frames
import PureOS.Gif.Render
import PureOS.Gif.Endings
import PureOS.Gif.Drawing
import PureOS.Gif.Safety
import PureOS.Foundation.Pieces
import PureOS.Fs.Resolve
import PureOS.Fs.Names
import PureOS.Fs.Commands
import PureOS.Config.File
import PureOS.Config.Validity
import PureOS.Memory.Pool
import PureOS.Memory.Tree
import PureOS.Memory.Update
import PureOS.Boot.Loader
import PureOS.Boot.Segments
import PureOS.Input.Delivery
import PureOS.Files.Descriptors
import PureOS.Files.Positioned
import PureOS.Foundation.Cyclic
import PureOS.Foundation.Eviction
import PureOS.Fs.Remove
import PureOS.Interp.Control
import PureOS.Interp.ControlFlow
import PureOS.Interp.Lexemes
import PureOS.Net.ArpCache
import PureOS.Net.NameCoding
import PureOS.Process.RoundRobin
import PureOS.Memory.Clone
import PureOS.Memory.Demand
import PureOS.Memory.Loading
import PureOS.Memory.Outcome
import PureOS.Memory.Release
import PureOS.Memory.Run
import PureOS.Memory.Supply
import PureOS.Memory.Budget
import PureOS.Memory.Atomic
import PureOS.Memory.Allocation
import PureOS.Memory.Apart
import PureOS.Memory.Loaded
import PureOS.Memory.Compiled
import PureOS.Memory.Pos
import PureOS.Desktop.Geometry
import PureOS.Desktop.Menus
import PureOS.Desktop.PaintOrder
import PureOS.Foundation.Ring
import PureOS.Gif.Painting
import PureOS.Image.Bmp
import PureOS.Jpeg.Blocks
import PureOS.Net.Dhcp
import PureOS.Net.Nic
import PureOS.Net.Reading
import PureOS.Foundation.Digital
import PureOS.Graphics.Blur
import PureOS.Graphics.Calls
import PureOS.Graphics.Cursor
import PureOS.Input.Decoding
import PureOS.Smp.WorkQueue
import PureOS.Usb.Addresses
import PureOS.Acpi.Madt
import PureOS.BlockFs.Inodes
import PureOS.Desktop.Icons
import PureOS.Foundation.BoundedQueue
import PureOS.Foundation.Conway
import PureOS.Games.Life
import PureOS.Games.Snake
import PureOS.Input.KeyBuffers
import PureOS.Shell.Editor
import PureOS.Shell.History
import PureOS.Shell.Lines
import PureOS.Terminal.Input
import PureOS.Process.Timer
import PureOS.Fs.Walk
import PureOS.Input.Reports
import PureOS.Shell.Installer
