import Dockerfiles.Shell.Text
import Dockerfiles.Shell.Words
import Dockerfiles.Shell.Echo
import Dockerfiles.Shell.Script
import Dockerfiles.Shell.Replace
import Dockerfiles.Shell.Sed
import Dockerfiles.Shell.Test
import Dockerfiles.FileTree.Basic
import Dockerfiles.FileTree.Walk
import Dockerfiles.FileTree.Commands
import Dockerfiles.Pg.Start
import Dockerfiles.Pg.Credentials
import Dockerfiles.Pg.Restart
import Dockerfiles.Memcached.Account
import Dockerfiles.Icecast.Template
import Dockerfiles.Icecast.Entrypoint
import Dockerfiles.Icecast.Restart
import Dockerfiles.AptMirror.Entrypoint
import Dockerfiles.Bind.Entrypoint
import Dockerfiles.Bind.Launch
import Dockerfiles.Bind.Safety
import Dockerfiles.Bind.Defaults
import Dockerfiles.Bind.Stages
import Dockerfiles.Bind.Links
import Dockerfiles.Bind.Provision
import Dockerfiles.Bind.Idempotent
import Dockerfiles.Numeral.Digits
import Dockerfiles.Numeral.Prefix
import Dockerfiles.Nginx.String
import Dockerfiles.Nginx.Inet
import Dockerfiles.Nginx.InetText
import Dockerfiles.Nginx.SocketText
import Dockerfiles.Nginx.Cidr
import Dockerfiles.Nginx.Forwarded
import Dockerfiles.Nginx.Geoip2
import Dockerfiles.Nginx.Geoip2Conf
import Dockerfiles.Crc.Register
import Dockerfiles.Crc.Matrix
import Dockerfiles.Crc.Polynomial
import Dockerfiles.Checksum.Fletcher
import Dockerfiles.Zlib.Crc32
import Dockerfiles.Zlib.Remainder
import Dockerfiles.Zlib.Adler32
import Dockerfiles.Nginx.Crc32
import Dockerfiles.Bits.Stream
import Dockerfiles.Program.Rules
import Dockerfiles.Zlib.Puff
import Dockerfiles.Zlib.PuffBits
import Dockerfiles.Zlib.PuffRuns
import Dockerfiles.Zlib.PuffBuffers
import Dockerfiles.Zlib.PuffModes
import Dockerfiles.Huffman.Canonical
import Dockerfiles.Zlib.PuffCodes
import Dockerfiles.Zlib.Trees
import Dockerfiles.Zlib.TreesBits
import Dockerfiles.Zlib.TreesCodes
import Dockerfiles.Zlib.TreesStatic
import Dockerfiles.Zlib.TreesTally
import Dockerfiles.Zlib.TreesBlocks
import Dockerfiles.Zlib.TreesRuns
import Dockerfiles.Zlib.TreesDynamic
import Dockerfiles.Zlib.TreesStream
import Dockerfiles.Huffman.Kraft
import Dockerfiles.Zlib.TreesBuild
import Dockerfiles.Zlib.TreesHeap
import Dockerfiles.Zlib.TreesLengths
import Dockerfiles.Zlib.TreesComplete
import Dockerfiles.Zlib.TreesFlush
import Dockerfiles.Zlib.TreesFreq
import Dockerfiles.Zlib.TreesRoundTrip
